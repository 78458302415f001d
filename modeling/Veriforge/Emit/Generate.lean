import Mathlib.Tactic.Common

/-! # Generate constructs, written and read back

The generate constructs of the emitter, over items, headers, conditions and labels whose text is taken as a
whole, and the rules of the grammar that read them, an `else` belonging to the nearest `if` without one. A
block is written without `begin` and `end` when it is unnamed and has one item; an item that ends in an `if`
without `else` then takes over the `else` that follows. -/

namespace Veriforge.Emit

/-! ## Trees -/

mutual

/-- An item of a generate block. -/
inductive GenItem
  /-- A declaration, instance, assignment or process. -/
  | leaf (text : String)
  | genFor (header : String) (body : GenBlock)
  | genIf (condition : String) (thenBody elseBody : Option GenBlock)
  | genCase (header : String) (first : GenCaseItem) (rest : List GenCaseItem)

/-- `GenerateBlock`. -/
inductive GenBlock
  | mk (name : Option String) (items : List GenItem)

/-- `GenerateCaseItem`: its values, or none for the default. -/
inductive GenCaseItem
  | mk (label : Option String) (body : Option GenBlock)

end

/-! ## Text -/

/-- What is written, an expression or a plain item counting as one token. -/
inductive GenTok
  | leaf (text : String)
  | forHeader (header : String)
  | ifHeader (condition : String)
  | caseHeader (header : String)
  | label (label : Option String)
  | kwElse
  | semicolon
  | begin (name : Option String)
  | kwEnd
  | kwEndcase
  deriving DecidableEq

mutual

/-- `_emit_generate_block_item`, with `_emit_generate_for`, `_emit_generate_if` and
`_emit_generate_case`. -/
def emitItem : GenItem → List GenTok
  | .leaf text => [.leaf text]
  | .genFor header body => .forHeader header :: emitBlock body
  | .genIf condition thenBody elseBody =>
      .ifHeader condition :: (emitBody thenBody ++ emitElse elseBody)
  | .genCase header first rest =>
      .caseHeader header :: (emitCaseItem first ++ (emitCaseItems rest ++ [.kwEndcase]))

/-- `_emit_generate_block`. -/
def emitBlock : GenBlock → List GenTok
  | .mk none [item] => emitItem item
  | .mk name items => .begin name :: (emitItems items ++ [.kwEnd])

/-- The block of an `if` or a case item, or `;`. -/
def emitBody : Option GenBlock → List GenTok
  | some body => emitBlock body
  | none => [.semicolon]

/-- `else` and its block. -/
def emitElse : Option GenBlock → List GenTok
  | some body => .kwElse :: emitBlock body
  | none => []

/-- The items of a block. -/
def emitItems : List GenItem → List GenTok
  | [] => []
  | item :: items => emitItem item ++ emitItems items

/-- `_emit_generate_case_item`. -/
def emitCaseItem : GenCaseItem → List GenTok
  | .mk label body => .label label :: emitBody body

/-- The items of a case. -/
def emitCaseItems : List GenCaseItem → List GenTok
  | [] => []
  | item :: items => emitCaseItem item ++ emitCaseItems items

end

/-! ## Grammar -/

/-- What a rule of the grammar stands for. -/
inductive GenNode
  /-- `module_or_generate_item` -/
  | item (item : GenItem)
  /-- `generate_block` -/
  | block (block : GenBlock)
  /-- `generate_block_or_null` -/
  | body (body : Option GenBlock)
  /-- the items before `end` -/
  | items (items : List GenItem)
  /-- the case items before `endcase` -/
  | caseItems (items : List GenCaseItem)

/-- The tokens from `ts` up to `rest` are read as a node. -/
inductive Reads : GenNode → List GenTok → List GenTok → Prop
  | leaf {text ts} : Reads (.item (.leaf text)) (.leaf text :: ts) ts
  | genFor {header body ts rest} : Reads (.block body) ts rest →
      Reads (.item (.genFor header body)) (.forHeader header :: ts) rest
  | genIfElse {condition thenBody elseBody ts ts' rest} :
      Reads (.body thenBody) ts (.kwElse :: ts') → Reads (.body elseBody) ts' rest →
      Reads (.item (.genIf condition thenBody elseBody)) (.ifHeader condition :: ts) rest
  /-- Without an `else`, none follows. -/
  | genIf {condition thenBody ts rest} : Reads (.body thenBody) ts rest →
      rest.head? ≠ some .kwElse →
      Reads (.item (.genIf condition thenBody none)) (.ifHeader condition :: ts) rest
  | genCase {header first items ts rest} : Reads (.caseItems (first :: items)) ts (.kwEndcase :: rest) →
      Reads (.item (.genCase header first items)) (.caseHeader header :: ts) rest
  | single {item ts rest} : Reads (.item item) ts rest → Reads (.block (.mk none [item])) ts rest
  | block {name items ts rest} : Reads (.items items) ts (.kwEnd :: rest) →
      Reads (.block (.mk name items)) (.begin name :: ts) rest
  | some {body ts rest} : Reads (.block body) ts rest → Reads (.body (some body)) ts rest
  | null {ts} : Reads (.body none) (.semicolon :: ts) ts
  | nilItems {ts} : Reads (.items []) (.kwEnd :: ts) (.kwEnd :: ts)
  | consItems {item items ts ts' rest} : Reads (.item item) ts ts' → Reads (.items items) ts' rest →
      Reads (.items (item :: items)) ts rest
  | nilCases {ts} : Reads (.caseItems []) (.kwEndcase :: ts) (.kwEndcase :: ts)
  | consCases {label body items ts ts' rest} : Reads (.body body) ts ts' →
      Reads (.caseItems items) ts' rest →
      Reads (.caseItems (.mk label body :: items)) (.label label :: ts) rest

/-! ## Open ifs -/

mutual

/-- The item ends in an `if` that an `else` could still follow. -/
def GenItem.endsOpen : GenItem → Bool
  | .leaf _ => false
  | .genFor _ body => body.endsOpen
  | .genIf _ _ none => true
  | .genIf _ _ (some elseBody) => elseBody.endsOpen
  | .genCase _ _ _ => false

/-- The block is written without `end` and its item ends in an open `if`. -/
def GenBlock.endsOpen : GenBlock → Bool
  | .mk none [item] => item.endsOpen
  | .mk _ _ => false

end

/-- `endsOpen` of the body of an `if`. -/
def bodyEndsOpen : Option GenBlock → Bool
  | some body => body.endsOpen
  | none => false

mutual

/-- No `if` with an `else` has a first block that ends in an open `if`. -/
def GenItem.binds : GenItem → Bool
  | .leaf _ => true
  | .genFor _ body => body.binds
  | .genIf _ thenBody none => bodyBinds thenBody
  | .genIf _ thenBody (some elseBody) =>
      !bodyEndsOpen thenBody && bodyBinds thenBody && elseBody.binds
  | .genCase _ first rest => first.binds && casesBind rest

/-- `binds` of every item of a block. -/
def GenBlock.binds : GenBlock → Bool
  | .mk _ items => itemsBind items

/-- `binds` of a body. -/
def bodyBinds : Option GenBlock → Bool
  | some body => body.binds
  | none => true

/-- `binds` of every item. -/
def itemsBind : List GenItem → Bool
  | [] => true
  | item :: items => item.binds && itemsBind items

/-- `binds` of a case item. -/
def GenCaseItem.binds : GenCaseItem → Bool
  | .mk _ body => bodyBinds body

/-- `binds` of every case item. -/
def casesBind : List GenCaseItem → Bool
  | [] => true
  | item :: items => item.binds && casesBind items

end

/-! ## Reading what was written -/

/-- An item does not begin with `else`. -/
theorem head_emitItem (item : GenItem) (ts : List GenTok) : (emitItem item ++ ts).head? ≠ some .kwElse := by
  cases item <;> simp [emitItem]

theorem head_emitItems (items : List GenItem) (ts : List GenTok) :
    (emitItems items ++ .kwEnd :: ts).head? ≠ some .kwElse := by
  cases items with
  | nil => simp [emitItems]
  | cons item items =>
    rw [emitItems, List.append_assoc]
    exact head_emitItem item _

theorem head_emitCaseItems (items : List GenCaseItem) (ts : List GenTok) :
    (emitCaseItems items ++ .kwEndcase :: ts).head? ≠ some .kwElse := by
  cases items with
  | nil => simp [emitCaseItems]
  | cons item items =>
    obtain ⟨label, body⟩ := item
    simp [emitCaseItems, emitCaseItem]

/-- A block with a name, or with other than one item, is written between `begin` and `end`. -/
theorem emitBlock_cases (name : Option String) (items : List GenItem) :
    (∃ item, name = none ∧ items = [item] ∧ emitBlock (.mk name items) = emitItem item ∧
        (GenBlock.mk name items).endsOpen = item.endsOpen) ∨
      (emitBlock (.mk name items) = .begin name :: (emitItems items ++ [.kwEnd]) ∧
        (GenBlock.mk name items).endsOpen = false) := by
  cases name with
  | some n => exact Or.inr ⟨rfl, rfl⟩
  | none =>
    match items with
    | [] => exact Or.inr ⟨rfl, rfl⟩
    | [item] => exact Or.inl ⟨item, rfl, rfl, rfl, rfl⟩
    | _ :: _ :: _ => exact Or.inr ⟨rfl, rfl⟩

mutual

theorem reads_emitItem (item : GenItem) (rest : List GenTok) (hb : item.binds = true)
    (ho : item.endsOpen = true → rest.head? ≠ some .kwElse) :
    Reads (.item item) (emitItem item ++ rest) rest := by
  match item with
  | .leaf text => exact .leaf
  | .genFor header body =>
    rw [GenItem.binds] at hb
    exact .genFor (reads_emitBlock body rest hb ho)
  | .genIf condition thenBody none =>
    rw [GenItem.binds] at hb
    rw [emitItem, emitElse, List.append_nil]
    exact .genIf (reads_emitBody thenBody rest hb fun _ => ho rfl) (ho rfl)
  | .genIf condition thenBody (some elseBody) =>
    rw [GenItem.binds, Bool.and_eq_true, Bool.and_eq_true, Bool.not_eq_true'] at hb
    rw [emitItem, emitElse, List.cons_append, List.append_assoc]
    have helse := reads_emitBlock elseBody rest hb.2 ho
    refine .genIfElse ?_ (.some helse)
    exact reads_emitBody thenBody _ hb.1.2 fun h => absurd (hb.1.1.symm.trans h) Bool.false_ne_true
  | .genCase header (.mk label body) items =>
    rw [GenItem.binds, GenCaseItem.binds, Bool.and_eq_true] at hb
    rw [emitItem, emitCaseItem, List.cons_append, List.cons_append, List.cons_append,
      List.append_assoc, List.append_assoc]
    refine .genCase (.consCases (reads_emitBody body _ hb.1 fun _ => head_emitCaseItems items _) ?_)
    exact reads_emitCaseItems items rest hb.2

theorem reads_emitBlock (block : GenBlock) (rest : List GenTok) (hb : block.binds = true)
    (ho : block.endsOpen = true → rest.head? ≠ some .kwElse) :
    Reads (.block block) (emitBlock block ++ rest) rest := by
  match block with
  | .mk none [item] =>
    rw [GenBlock.binds, itemsBind, Bool.and_eq_true] at hb
    exact .single (reads_emitItem item rest hb.1 ho)
  | .mk none [] => exact .block .nilItems
  | .mk none (first :: second :: items) =>
    rw [GenBlock.binds] at hb
    show Reads _ (.begin none :: ((emitItems (first :: second :: items) ++ [.kwEnd]) ++ rest)) rest
    rw [List.append_assoc]
    exact .block (reads_emitItems (first :: second :: items) rest hb)
  | .mk (some name) items =>
    rw [GenBlock.binds] at hb
    show Reads _ (.begin (some name) :: ((emitItems items ++ [.kwEnd]) ++ rest)) rest
    rw [List.append_assoc]
    exact .block (reads_emitItems items rest hb)

theorem reads_emitBody (body : Option GenBlock) (rest : List GenTok) (hb : bodyBinds body = true)
    (ho : bodyEndsOpen body = true → rest.head? ≠ some .kwElse) :
    Reads (.body body) (emitBody body ++ rest) rest := by
  match body with
  | some block => exact .some (reads_emitBlock block rest hb ho)
  | none => exact .null

theorem reads_emitItems (items : List GenItem) (rest : List GenTok) (hb : itemsBind items = true) :
    Reads (.items items) (emitItems items ++ .kwEnd :: rest) (.kwEnd :: rest) := by
  match items with
  | [] => exact .nilItems
  | item :: items =>
    rw [itemsBind, Bool.and_eq_true] at hb
    rw [emitItems, List.append_assoc]
    exact .consItems (reads_emitItem item _ hb.1 fun _ => head_emitItems items rest)
      (reads_emitItems items rest hb.2)

theorem reads_emitCaseItems (items : List GenCaseItem) (rest : List GenTok)
    (hb : casesBind items = true) :
    Reads (.caseItems items) (emitCaseItems items ++ .kwEndcase :: rest) (.kwEndcase :: rest) := by
  match items with
  | [] => exact .nilCases
  | .mk label body :: items =>
    rw [casesBind, GenCaseItem.binds, Bool.and_eq_true] at hb
    rw [emitCaseItems, emitCaseItem, List.cons_append, List.cons_append, List.append_assoc]
    exact .consCases (reads_emitBody body _ hb.1 fun _ => head_emitCaseItems items rest)
      (reads_emitCaseItems items rest hb.2)

end

/-! ## One reading -/

/-- Nodes of one rule. -/
def GenNode.sameRule : GenNode → GenNode → Bool
  | .item _, .item _ | .block _, .block _ | .body _, .body _ | .items _, .items _ => true
  | .caseItems _, .caseItems _ => true
  | _, _ => false

/-- The tokens an item can begin with. -/
def GenTok.startsItem : GenTok → Bool
  | .leaf _ | .forHeader _ | .ifHeader _ | .caseHeader _ => true
  | _ => false

theorem Reads.startsItem {item : GenItem} {ts rest : List GenTok} (h : Reads (.item item) ts rest) :
    ∃ t ts', ts = t :: ts' ∧ t.startsItem = true := by
  cases h <;> exact ⟨_, _, rfl, rfl⟩

/-- The tokens a block can begin with. -/
theorem Reads.startsBlock {block : GenBlock} {ts rest : List GenTok}
    (h : Reads (.block block) ts rest) :
    ∃ t ts', ts = t :: ts' ∧ (t.startsItem = true ∨ ∃ name, t = .begin name) := by
  cases h with
  | single h =>
    obtain ⟨t, ts', rfl, ht⟩ := h.startsItem
    exact ⟨t, ts', rfl, Or.inl ht⟩
  | block h => exact ⟨_, _, rfl, Or.inr ⟨_, rfl⟩⟩

/-- A text is read in one way. -/
theorem Reads.unique {n n' : GenNode} {ts rest rest' : List GenTok} (h : Reads n ts rest)
    (hr : n.sameRule n' = true) (h' : Reads n' ts rest') : n = n' ∧ rest = rest' := by
  induction h generalizing n' rest' with
  | leaf =>
    cases h' with
    | leaf => exact ⟨rfl, rfl⟩
    | single | some | consItems => cases hr
  | genFor _ ih =>
    cases h' with
    | genFor hb =>
      obtain ⟨heq, rfl⟩ := ih rfl hb
      cases heq
      exact ⟨rfl, rfl⟩
    | single | some | consItems => cases hr
  | genIfElse _ _ iht ihe =>
    cases h' with
    | genIfElse ht he =>
      obtain ⟨heq, hrest⟩ := iht rfl ht
      cases heq
      cases hrest
      obtain ⟨heq, rfl⟩ := ihe rfl he
      cases heq
      exact ⟨rfl, rfl⟩
    | genIf ht hne =>
      obtain ⟨-, hrest⟩ := iht rfl ht
      exact absurd (by rw [← hrest]; rfl) hne
    | single | some | consItems => cases hr
  | genIf _ hne ih =>
    cases h' with
    | genIfElse ht he =>
      obtain ⟨-, hrest⟩ := ih rfl ht
      exact absurd (by rw [hrest]; rfl) hne
    | genIf ht _ =>
      obtain ⟨heq, rfl⟩ := ih rfl ht
      cases heq
      exact ⟨rfl, rfl⟩
    | single | some | consItems => cases hr
  | genCase _ ih =>
    cases h' with
    | genCase hc =>
      obtain ⟨heq, hrest⟩ := ih rfl hc
      cases heq
      cases hrest
      exact ⟨rfl, rfl⟩
    | single | some | consItems => cases hr
  | single hi ih =>
    cases h' with
    | single hi' =>
      obtain ⟨heq, rfl⟩ := ih rfl hi'
      cases heq
      exact ⟨rfl, rfl⟩
    | block =>
      obtain ⟨t, ts', heq, ht⟩ := hi.startsItem
      cases heq
      cases ht
    | _ => cases hr
  | block _ ih =>
    cases h' with
    | single hi' =>
      obtain ⟨t, ts', heq, ht⟩ := hi'.startsItem
      cases heq
      cases ht
    | block hi' =>
      obtain ⟨heq, hrest⟩ := ih rfl hi'
      cases heq
      cases hrest
      exact ⟨rfl, rfl⟩
    | some | consItems => cases hr
  | some hb ih =>
    cases h' with
    | some hb' =>
      obtain ⟨heq, rfl⟩ := ih rfl hb'
      cases heq
      exact ⟨rfl, rfl⟩
    | null =>
      obtain ⟨t, ts', heq, ht⟩ := hb.startsBlock
      cases heq
      rcases ht with ht | ⟨name, ht⟩ <;> cases ht
    | _ => cases hr
  | null =>
    cases h' with
    | some hb =>
      obtain ⟨t, ts', heq, ht⟩ := hb.startsBlock
      cases heq
      rcases ht with ht | ⟨name, ht⟩ <;> cases ht
    | null => exact ⟨rfl, rfl⟩
    | single | consItems => cases hr
  | nilItems =>
    cases h' with
    | nilItems => exact ⟨rfl, rfl⟩
    | consItems hi =>
      obtain ⟨t, ts', heq, ht⟩ := hi.startsItem
      cases heq
      cases ht
    | single | some => cases hr
  | consItems hi _ ihi ihs =>
    cases h' with
    | nilItems =>
      obtain ⟨t, ts', heq, ht⟩ := hi.startsItem
      cases heq
      cases ht
    | consItems hi' hs' =>
      obtain ⟨heq, rfl⟩ := ihi rfl hi'
      cases heq
      obtain ⟨heq, rfl⟩ := ihs rfl hs'
      cases heq
      exact ⟨rfl, rfl⟩
    | _ => cases hr
  | nilCases =>
    cases h' with
    | nilCases => exact ⟨rfl, rfl⟩
    | single | some | consItems => cases hr
  | consCases _ _ ihb ihs =>
    cases h' with
    | consCases hb' hs' =>
      obtain ⟨heq, rfl⟩ := ihb rfl hb'
      cases heq
      obtain ⟨heq, rfl⟩ := ihs rfl hs'
      cases heq
      exact ⟨rfl, rfl⟩
    | single | some | consItems => cases hr

/-! ## A text of the length that was written -/

/-- The text written for a node. -/
def GenNode.emit : GenNode → List GenTok
  | .item i => emitItem i
  | .block b => emitBlock b
  | .body o => emitBody o
  | .items is => emitItems is
  | .caseItems cs => emitCaseItems cs

/-- `binds` of a node. -/
def GenNode.binds : GenNode → Bool
  | .item i => i.binds
  | .block b => b.binds
  | .body o => bodyBinds o
  | .items is => itemsBind is
  | .caseItems cs => casesBind cs

/-- `endsOpen` of a node; what follows the items of a block or a case is never an `else`. -/
def GenNode.endsOpen : GenNode → Bool
  | .item i => i.endsOpen
  | .block b => b.endsOpen
  | .body o => bodyEndsOpen o
  | .items _ | .caseItems _ => false

theorem length_emitElse_le (o : Option GenBlock) : (emitElse o).length ≤ (emitBody o).length + 1 := by
  cases o with
  | none => simp [emitElse]
  | some b => simp [emitElse, emitBody]

/-- No text of a node is shorter than the one written for it. -/
theorem Reads.length_emit {n : GenNode} {ts rest : List GenTok} (h : Reads n ts rest) :
    n.emit.length + rest.length ≤ ts.length := by
  induction h with
  | leaf | null | nilItems | nilCases =>
    simp only [GenNode.emit, emitItem, emitBody, emitItems, emitCaseItems, List.length_cons, List.length_nil]
    omega
  | genFor _ ih =>
    simp only [GenNode.emit, emitItem, List.length_cons] at ih ⊢
    omega
  | @genIfElse _ _ elseBody _ _ _ _ _ iht ihe =>
    have helse := length_emitElse_le elseBody
    simp only [GenNode.emit, emitItem, List.length_cons, List.length_append] at iht ihe ⊢
    omega
  | genIf _ _ ih =>
    simp only [GenNode.emit, emitItem, emitElse, List.append_nil, List.length_cons] at ih ⊢
    omega
  | genCase _ ih =>
    simp only [GenNode.emit, emitItem, emitCaseItems, List.length_cons, List.length_append, List.length_nil] at ih ⊢
    omega
  | single _ ih => exact ih
  | @block name items _ _ _ ih =>
    simp only [GenNode.emit, List.length_cons] at ih ⊢
    rcases emitBlock_cases name items with ⟨item, -, rfl, heq, -⟩ | ⟨heq, -⟩
    · rw [emitItems, emitItems, List.append_nil] at ih
      rw [heq]
      omega
    · rw [heq, List.length_cons, List.length_append]
      simp only [List.length_cons, List.length_nil]
      omega
  | some _ ih => exact ih
  | consItems _ _ ihi ihs =>
    simp only [GenNode.emit, emitItems, List.length_append] at ihi ihs ⊢
    omega
  | consCases _ _ ihb ihs =>
    simp only [GenNode.emit, emitCaseItems, emitCaseItem, List.length_append, List.length_cons] at ihb ihs ⊢
    omega

/-- A text no longer than the one written is read with every `else` where the tree has it. -/
theorem Reads.binds_of_length {n : GenNode} {ts rest : List GenTok} (h : Reads n ts rest)
    (hle : ts.length ≤ n.emit.length + rest.length) :
    n.binds = true ∧ (n.endsOpen = true → rest.head? ≠ Option.some .kwElse) := by
  induction h with
  | leaf => exact ⟨rfl, fun h => absurd h Bool.false_ne_true⟩
  | null => exact ⟨rfl, fun h => absurd h Bool.false_ne_true⟩
  | nilItems => exact ⟨rfl, fun h => absurd h Bool.false_ne_true⟩
  | nilCases => exact ⟨rfl, fun h => absurd h Bool.false_ne_true⟩
  | genFor _ ih =>
    simp only [GenNode.emit, emitItem, List.length_cons] at ih hle
    exact ih (by omega)
  | @genIfElse _ thenBody elseBody _ _ _ ht he iht ihe =>
    have hlt := ht.length_emit
    have hle' := he.length_emit
    simp only [GenNode.emit, emitItem, List.length_cons, List.length_append] at iht ihe hlt hle' hle
    cases elseBody with
    | none =>
      -- `else ;` is longer than nothing
      simp only [emitElse, emitBody, List.length_cons, List.length_nil] at hle' hle
      omega
    | some b =>
      simp only [emitElse, emitBody, List.length_cons] at hle' hle ihe
      obtain ⟨hbt, hot⟩ := iht (by omega)
      obtain ⟨hbe, hoe⟩ := ihe (by omega)
      have hclosed : bodyEndsOpen thenBody = false := by
        by_contra hopen
        exact hot (Bool.not_eq_false _ ▸ hopen) rfl
      refine ⟨?_, hoe⟩
      show (!bodyEndsOpen thenBody && bodyBinds thenBody && b.binds) = true
      rw [hclosed, show bodyBinds thenBody = true from hbt, show b.binds = true from hbe]
      rfl
  | genIf _ hne ih =>
    simp only [GenNode.emit, emitItem, emitElse, List.append_nil, List.length_cons] at ih hle
    exact ⟨(ih (by omega)).1, fun _ => hne⟩
  | @genCase _ first items _ _ _ ih =>
    simp only [GenNode.emit, emitItem, emitCaseItems, List.length_cons, List.length_append, List.length_nil] at ih hle
    exact ⟨(ih (by omega)).1, fun h => absurd h Bool.false_ne_true⟩
  | @single item _ _ _ ih =>
    obtain ⟨hb, ho⟩ := ih hle
    refine ⟨?_, ho⟩
    show (item.binds && itemsBind []) = true
    rw [show item.binds = true from hb]
    rfl
  | @block name items _ _ h ih =>
    have hlen := h.length_emit
    simp only [GenNode.emit, List.length_cons] at ih hlen hle
    rcases emitBlock_cases name items with ⟨item, -, rfl, heq, -⟩ | ⟨heq, hclosed⟩
    · -- `begin` and `end` are longer than nothing
      rw [emitItems, emitItems, List.append_nil] at hlen
      rw [heq] at hle
      omega
    · rw [heq, List.length_cons, List.length_append] at hle
      simp only [List.length_cons, List.length_nil] at hle
      exact ⟨(ih (by omega)).1, fun h => absurd (hclosed.symm.trans h) Bool.false_ne_true⟩
  | some _ ih => exact ih hle
  | @consItems item items _ _ _ hi hs ihi ihs =>
    have hli := hi.length_emit
    have hls := hs.length_emit
    simp only [GenNode.emit, emitItems, List.length_append] at ihi ihs hli hls hle
    refine ⟨?_, fun h => absurd h Bool.false_ne_true⟩
    show (item.binds && itemsBind items) = true
    rw [show item.binds = true from (ihi (by omega)).1, show itemsBind items = true from (ihs (by omega)).1]
    rfl
  | @consCases label body items _ _ _ hb hs ihb ihs =>
    have hlb := hb.length_emit
    have hls := hs.length_emit
    simp only [GenNode.emit, emitCaseItems, emitCaseItem, List.length_append, List.length_cons] at ihb ihs hlb hls hle
    refine ⟨?_, fun h => absurd h Bool.false_ne_true⟩
    show (bodyBinds body && casesBind items) = true
    rw [show bodyBinds body = true from (ihb (by omega)).1, show casesBind items = true from (ihs (by omega)).1]
    rfl

theorem binds_of_reads {item : GenItem} (h : Reads (.item item) (emitItem item) []) : item.binds = true :=
  (h.binds_of_length (by simp [GenNode.emit])).1

end Veriforge.Emit

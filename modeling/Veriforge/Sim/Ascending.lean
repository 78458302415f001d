import Veriforge.Emit.Operand

/-! # Constant ranges become `[w-1:0]`

`lower_ascending_ranges` (`sim/ascending.py`), with `offsets`: every constant packed range is redeclared as
`[w-1:0]` and the selects on it are remapped, before anything is simulated. `env` holds the parameters of the
module. -/

namespace Veriforge

namespace Const

variable {env : String → Option Int}

/-- The parts of a concatenation, one after the other. -/
theorem evalConstParts_of_closed {ps : List Expr}
    (ih : ∀ p ∈ ps, ∀ v, evalConst (fun _ => none) p = some v → evalConst env p = some v) {acc : Nat} {v : Int}
    (h : evalConstParts (fun _ => none) ps acc = some v) : evalConstParts env ps acc = some v := by
  induction ps generalizing acc with
  | nil => exact h
  | cons p ps ihps =>
    rw [List.forall_mem_cons] at ih
    rw [evalConstParts] at h ⊢
    obtain ⟨value, hvalue, h⟩ := Option.bind_eq_some_iff.mp h
    obtain ⟨w, hw, h⟩ := Option.bind_eq_some_iff.mp h
    rw [ih.1 value hvalue, hw]
    exact ihps ih.2 h

theorem evalConstArgs_of_closed {as : List Expr}
    (ih : ∀ a ∈ as, ∀ v, evalConst (fun _ => none) a = some v → evalConst env a = some v) {vs : List Int}
    (h : evalConstArgs (fun _ => none) as = some vs) : evalConstArgs env as = some vs := by
  induction as generalizing vs with
  | nil => exact h
  | cons a as ihas =>
    rw [List.forall_mem_cons] at ih
    rw [evalConstArgs] at h ⊢
    obtain ⟨value, hvalue, h⟩ := Option.bind_eq_some_iff.mp h
    obtain ⟨rest, hrest, h⟩ := Option.bind_eq_some_iff.mp h
    rw [ih.1 value hvalue, ihas ih.2 hrest]
    exact h

/-- A constant that needs no parameter is the same under any. -/
theorem evalConst_of_closed (env : String → Option Int) {e : Expr} {v : Int} (h : evalConst (fun _ => none) e = some v) :
    evalConst env e = some v := by
  induction e generalizing v with
  | ident hier n =>
    rw [evalConst] at h
    cases h
  | literal l => exact h
  | string s => exact h
  | unary op e ih =>
    rw [evalConst] at h ⊢
    obtain ⟨a, ha, h⟩ := Option.bind_eq_some_iff.mp h
    rw [ih ha]
    exact h
  | binary op l r ihl ihr =>
    rw [evalConst] at h ⊢
    obtain ⟨a, ha, h⟩ := Option.bind_eq_some_iff.mp h
    obtain ⟨b, hb, h⟩ := Option.bind_eq_some_iff.mp h
    rw [ihl ha, ihr hb]
    exact h
  | ternary c t f ihc iht ihf =>
    rw [evalConst] at h ⊢
    obtain ⟨cond, hc, h⟩ := Option.bind_eq_some_iff.mp h
    rw [ihc hc]
    show (if cond ≠ 0 then evalConst env t else evalConst env f) = some v
    split at h
    · next h0 => rw [if_pos h0, iht h]
    · next h0 => rw [if_neg h0, ihf h]
  | concat b ps ih =>
    rw [evalConst] at h ⊢
    split at h
    · next h1 =>
      rw [if_pos h1]
      obtain ⟨p, rfl⟩ := List.length_eq_one_iff.mp h1
      exact ih p List.mem_cons_self h
    · next h1 =>
      rw [if_neg h1]
      exact evalConstParts_of_closed (fun p hp v => ih p hp) h
  | replicate c v ihc ihv =>
    rw [evalConst] at h ⊢
    obtain ⟨count, hc, h⟩ := Option.bind_eq_some_iff.mp h
    obtain ⟨value, hv, h⟩ := Option.bind_eq_some_iff.mp h
    rw [ihc hc, ihv hv]
    exact h
  | rangeSelect t m l iht ihm ihl =>
    rw [evalConst] at h ⊢
    obtain ⟨base, ht, h⟩ := Option.bind_eq_some_iff.mp h
    obtain ⟨msb, hm, h⟩ := Option.bind_eq_some_iff.mp h
    obtain ⟨lsb, hl, h⟩ := Option.bind_eq_some_iff.mp h
    rw [iht ht, ihm hm, ihl hl]
    exact h
  | partSelect t b w d iht ihb ihw =>
    rw [evalConst] at h ⊢
    obtain ⟨target, ht, h⟩ := Option.bind_eq_some_iff.mp h
    obtain ⟨base, hb, h⟩ := Option.bind_eq_some_iff.mp h
    obtain ⟨width, hw, h⟩ := Option.bind_eq_some_iff.mp h
    rw [iht ht, ihb hb, ihw hw]
    exact h
  | cast s a ih =>
    rw [evalConst] at h ⊢
    exact ih h
  | call f as ih =>
    rw [evalConst] at h ⊢
    split at h
    · -- `$bits` reads the environment
      rcases as with _ | ⟨a, _ | ⟨b, as⟩⟩
      · cases h
      · cases a <;> cases h
      · cases a <;> cases h
    · next hf =>
      obtain ⟨vs, hvs, h⟩ := Option.bind_eq_some_iff.mp h
      rw [if_neg hf, evalConstArgs_of_closed (fun a ha v => ih a ha) hvs]
      exact h
  | streaming | streamingBy | bitSelect =>
    rw [evalConst] at h
    cases h

end Const

namespace Ascending

open Emit

/-- `_index_literal`. -/
def indexLiteral (v : Int) : Expr :=
  .literal ⟨.int (v % 2 ^ 32), some 32, true, false, false, if 0 ≤ v then .decimal v else .none⟩

/-- `_const_index`. -/
def constIndex : Expr → Option Int
  | .literal l => if l.isX || l.isZ then none else constInt (.literal l)
  | e => constInt e

/-- `_flip`: `right - index`. -/
def flip (right : Int) (index : Expr) : Expr :=
  match constIndex index with
  | some v => indexLiteral (right - v)
  | none => .binary .sub (indexLiteral right) index

/-- `_offset`: `index - lsb`. -/
def offset (lsb : Int) (index : Expr) : Expr :=
  match constIndex index with
  | some v => indexLiteral (v - lsb)
  | none => if lsb < 0 then .binary .add index (indexLiteral (-lsb)) else .binary .sub index (indexLiteral lsb)

/-- `_position`. -/
def position (left right : Int) (index : Expr) : Expr :=
  if left < right then flip right index else offset right index

/-- `_ascending_decls` of one declaration: its bounds and the number of its unpacked dimensions. -/
def ascendingDecl (env : String → Option Int) (d : Declaration) : Option (Int × Int × Int) :=
  match d.width with
  | none => none
  | some (msb, lsb) =>
      if 1 < d.packedDimCount then none
      else do
        let left ← Const.evalConst env msb
        let right ← Const.evalConst env lsb
        if right ≤ left ∧ right = 0 then none
        else some (left, right, d.dimensions.length - d.packedDimCount)

section

variable (asc : String → Option (Int × Int × Int))

/-- The name under a chain of bit selects, and the length of the chain. -/
def chain : Expr → Option String × Nat
  | .bitSelect t _ => ((chain t).1, (chain t).2 + 1)
  | .ident h n => (some (identifierName h n), 0)
  | _ => (none, 0)

/-- `target_info`: the bounds of the vector or memory element selected from. -/
def targetInfo (t : Expr) : Option (Int × Int) := do
  let name ← (chain t).1
  let (left, right, unpacked) ← asc name
  if (chain t).2 = unpacked then some (left, right) else none

/-- `lower` of one node. -/
def lowerNode : Expr → Expr
  | .bitSelect t i =>
      match targetInfo asc t with
      | some (left, right) => .bitSelect t (position left right i)
      | none => .bitSelect t i
  | .rangeSelect t m l =>
      match targetInfo asc t with
      | some (left, right) => .rangeSelect t (position left right m) (position left right l)
      | none => .rangeSelect t m l
  | .partSelect t b w d =>
      match targetInfo asc t with
      | some (left, right) =>
          let direction := if left < right then (if d = .up then .down else .up) else d
          .partSelect t (position left right b) w direction
      | none => .partSelect t b w d
  | e => e

mutual

/-- The pass over an expression, its parts first. -/
def lower : Expr → Expr
  | .unary op e => .unary op (lower e)
  | .binary op l r => .binary op (lower l) (lower r)
  | .ternary c t f => .ternary (lower c) (lower t) (lower f)
  | .concat b ps => .concat b (lowerList ps)
  | .replicate c v => .replicate (lower c) (lower v)
  | .streaming ps => .streaming (lowerList ps)
  | .streamingBy s ps => .streamingBy (lower s) (lowerList ps)
  | .bitSelect t i => lowerNode asc (.bitSelect (lower t) (lower i))
  | .rangeSelect t m l => lowerNode asc (.rangeSelect (lower t) (lower m) (lower l))
  | .partSelect t b w d => lowerNode asc (.partSelect (lower t) (lower b) (lower w) d)
  | .cast s a => .cast s (lower a)
  | .call f as => .call f (lowerList as)
  | e => e

/-- The pass over a list of parts. -/
def lowerList : List Expr → List Expr
  | [] => []
  | e :: es => lower e :: lowerList es

end

section

-- derived here once, not by every proof
attribute [local simp] lower lowerList

end

theorem lowerList_eq_map (es : List Expr) : lowerList asc es = es.map (lower asc) := by
  induction es with
  | nil => rfl
  | cons e es ih => rw [lowerList, List.map_cons, ih]

end

end Ascending

end Veriforge

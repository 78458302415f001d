import Mathlib.Data.List.Perm.Basic
import Mathlib.Data.List.Forall2
import Mathlib.Data.List.Nodup
import Mathlib.Data.List.Range
import Mathlib.Tactic.Ring
import Veriforge.Const.Elaborate
import Veriforge.Except

/-! # Port connections

`_wire_port_connections` (`sim/elaborate.py`): an instance's ports become continuous assigns, a port declared with
unpacked dimensions one for each element. `_expand_port_connection_pairs` runs over the indices of the *port* and selects
the parent's signal at the same indices, so that elements of equal positions are joined only where both sides are
declared with the same bounds (`joins_positions_iff`). -/

namespace Veriforge.Ports

open Const

/-! ## The model's parts -/

/-- `Range`: a dimension, its left bound first. -/
structure Range where
  msb : Expr
  lsb : Expr

inductive PortDirection
  | input | output | inout
  deriving DecidableEq

structure Port where
  name : String
  direction : PortDirection
  dimensions : List Range

/-- A connection of an instance, by name or by position. -/
structure PortConnection where
  portName : Option String
  expression : Option Expr
  isNamed : Bool

structure ContinuousAssign where
  lhs : Expr
  rhs : Expr

structure Instance where
  instanceName : String
  moduleName : String
  portConnections : List PortConnection

/-! ## The elements of a connection -/

/-- `list(range(start, stop, step))`, the step being one up or down. -/
def countBy (start stop step : Int) : List Int :=
  (List.range ((stop - start) / step).toNat).map fun (k : Nat) => start + k * step

/-- `Literal(index)`. -/
def literalOf (index : Int) : Expr := .literal ⟨.int index, none, false, false, false, .none⟩

section

variable (X : Elab)

/-- `_eval_const_expr(e, \x7b\x7d)`, an integer. -/
def constantBound (e : Expr) : Option Int := do (← evalConstExpr X (fun _ => none) e).int?

/-- `_dimension_indices`. -/
def dimensionIndices (dim : Range) : Option (List Int) := do
  let msb ← constantBound X dim.msb
  let lsb ← constantBound X dim.lsb
  let step := if msb > lsb then -1 else 1
  return countBy msb (lsb + step) step

/-- `_expand_port_connection_pairs`. -/
def expandPortConnectionPairs (child parent : Expr) : List Range → List (Expr × Expr)
  | [] => [(child, parent)]
  | first :: rest =>
      match dimensionIndices X first with
      | none => [(child, parent)]
      | some indices => indices.flatMap fun index =>
          expandPortConnectionPairs (.bitSelect child (literalOf index)) (.bitSelect parent (literalOf index)) rest

/-- What `_wire_port_connections` adds for one connected port. -/
def connectPort (pre : String) (port : Port) (parent : Expr) : List ContinuousAssign :=
  let pairs := expandPortConnectionPairs X (.ident [] (pre ++ "." ++ port.name)) parent port.dimensions
  (if port.direction = .input ∨ port.direction = .inout then pairs.map fun p => ⟨p.1, p.2⟩ else []) ++
    (if port.direction = .output ∨ port.direction = .inout then pairs.map fun p => ⟨p.2, p.1⟩ else [])

/-- `_resolve_port_for_conn`. -/
def resolvePortForConn (ports : List Port) (conn : PortConnection) (index : Nat) : Option Port :=
  if conn.isNamed then
    match conn.portName with
    | some name => if name = "" then none else ports.find? fun p => p.name = name
    | none => none
  else ports[index]?

/-- The name of a connection that no port has. -/
def unknownName (conn : PortConnection) : Option String :=
  if conn.isNamed then conn.portName.filter fun name => name ≠ "" else none

/-- The loop of `_wire_port_connections`, from the connection of this index on. -/
def wireFrom (inst : Instance) (ports : List Port) (pre : String) :
    List PortConnection → Nat → List String → Except String (List ContinuousAssign)
  | [], _, _ => .ok []
  | conn :: rest, i, connected =>
      match resolvePortForConn ports conn i with
      | none =>
          match unknownName conn with
          | some name => .error ("Instance '" ++ inst.instanceName ++ "' connects port '" ++ name ++
              "', which module '" ++ inst.moduleName ++ "' doesn't have (its ports: " ++
              (if ports = [] then "none" else ", ".intercalate (ports.map Port.name)) ++ ")")
          | none => wireFrom inst ports pre rest (i + 1) connected
      | some port =>
          if port.name ∈ connected then
            .error ("Instance '" ++ inst.instanceName ++ "' connects port '" ++ port.name ++ "' twice")
          else do
            let later ← wireFrom inst ports pre rest (i + 1) (port.name :: connected)
            return (conn.expression.elim [] (connectPort X pre port)) ++ later

/-- `_wire_port_connections`. -/
def wirePortConnections (inst : Instance) (ports : List Port) (pre : String) : Except String (List ContinuousAssign) :=
  let conns := inst.portConnections
  let positional := conns.filter fun c => !c.isNamed
  -- `u1 ()` is one empty positional connection, also of a module without ports
  let empty := conns.length = 1 ∧ conns.head?.all fun c => c.expression.isNone
  if ports.length < positional.length ∧ ¬ empty then
    .error ("Instance '" ++ inst.instanceName ++ "' has " ++ toString positional.length ++
      " positional port connections, but module '" ++ inst.moduleName ++ "' has " ++ toString ports.length ++ " port(s)")
  else wireFrom X inst ports pre conns 0 []

/-! ## Connections apart -/

/-- What one connection of an instance adds. -/
def assignsOf (ports : List Port) (pre : String) (conn : PortConnection) (index : Nat) : List ContinuousAssign :=
  (resolvePortForConn ports conn index).elim [] fun port => conn.expression.elim [] (connectPort X pre port)

/-- The ports that connections resolve to. -/
def portNames (ports : List Port) (conns : List (PortConnection × Nat)) : List String :=
  conns.filterMap fun c => (resolvePortForConn ports c.1 c.2).map Port.name

theorem wireFrom_ok_iff {inst : Instance} {ports : List Port} {pre : String} {conns : List PortConnection} {i : Nat}
    {connected : List String} {as : List ContinuousAssign} :
    wireFrom X inst ports pre conns i connected = .ok as ↔
      (∀ c ∈ conns.zipIdx i, resolvePortForConn ports c.1 c.2 = none → unknownName c.1 = none) ∧
        (portNames ports (conns.zipIdx i)).Nodup ∧ (∀ n ∈ portNames ports (conns.zipIdx i), n ∉ connected) ∧
        as = (conns.zipIdx i).flatMap fun c => assignsOf X ports pre c.1 c.2 := by
  induction conns generalizing i connected as with
  | nil => simp [wireFrom, portNames, eq_comm]
  | cons conn rest ih =>
    rw [wireFrom, List.zipIdx_cons, List.forall_mem_cons, List.flatMap_cons, assignsOf, portNames]
    cases hp : resolvePortForConn ports conn i with
    | none =>
      rw [List.filterMap_cons_none (by simp [hp])]
      cases hn : unknownName conn with
      | none => simpa [hp, hn, portNames] using ih
      | some name => simp [hn]
    | some port =>
      rw [List.filterMap_cons_some (b := port.name) (by simp [hp]), ← portNames]
      by_cases hc : port.name ∈ connected
      · simp [hc]
      · dsimp only
        rw [if_neg hc, List.nodup_cons]
        refine bind_ok_iff.trans ?_
        simp only [ih, List.mem_cons, not_or, Option.elim_some, pure, Except.pure, Except.ok.injEq]
        grind

/-- An instance is wired where each positional connection has a port, each named one names a port, and no port is
connected twice. It adds what each of its connections adds. -/
theorem wirePortConnections_ok_iff {inst : Instance} {ports : List Port} {pre : String} {as : List ContinuousAssign} :
    wirePortConnections X inst ports pre = .ok as ↔
      ((inst.portConnections.filter fun c => !c.isNamed).length ≤ ports.length ∨
          inst.portConnections.length = 1 ∧ inst.portConnections.head?.all fun c => c.expression.isNone) ∧
        (∀ c ∈ inst.portConnections.zipIdx, resolvePortForConn ports c.1 c.2 = none → unknownName c.1 = none) ∧
        (portNames ports inst.portConnections.zipIdx).Nodup ∧
        as = inst.portConnections.zipIdx.flatMap fun c => assignsOf X ports pre c.1 c.2 := by
  rw [wirePortConnections]
  split
  · next h => simp [h]
  · next h =>
    rw [not_and_or, not_lt, not_not] at h
    rw [wireFrom_ok_iff]
    simp [h]

end

/-! ## Positions of elements -/

/-- The bounds of a dimension. -/
structure Dim where
  left : Int
  right : Int
  deriving DecidableEq

namespace Dim

/-- How many elements the dimension has. -/
def length (d : Dim) : Nat := (d.left - d.right).natAbs + 1

/-- The index of the element at a position counted from the left bound. -/
def index (d : Dim) (p : Nat) : Int := if d.left > d.right then d.left - p else d.left + p

@[simp] theorem index_zero (d : Dim) : d.index 0 = d.left := by
  rw [index]
  split <;> simp

@[simp] theorem index_last (d : Dim) : d.index (d.length - 1) = d.right := by
  rw [index, length]
  split <;> omega

end Dim

/-- The positions of an array's elements, the first dimension outermost. -/
def positions : List Dim → List (List Nat)
  | [] => [[]]
  | d :: ds => (List.range d.length).flatMap fun p => (positions ds).map fun q => p :: q

/-- A position is below the length in each dimension. -/
theorem mem_positions {ds : List Dim} {q : List Nat} :
    q ∈ positions ds ↔ List.Forall₂ (fun p d => p < Dim.length d) q ds := by
  induction ds generalizing q with
  | nil => simp [positions]
  | cons d ds ih =>
    rw [positions, List.mem_flatMap, List.forall₂_cons_right_iff]
    constructor
    · rintro ⟨p, hp, h⟩
      obtain ⟨q, hq, rfl⟩ := List.mem_map.mp h
      exact ⟨p, q, List.mem_range.mp hp, ih.mp hq, rfl⟩
    · rintro ⟨p, q, hp, hq, rfl⟩
      exact ⟨p, List.mem_range.mpr hp, List.mem_map.mpr ⟨q, ih.mpr hq, rfl⟩⟩

/-- The element of these indices. -/
def selected (root : Expr) (indices : List Int) : Expr :=
  indices.foldl (fun e i => .bitSelect e (literalOf i)) root

theorem literalOf_inj {i j : Int} (h : literalOf i = literalOf j) : i = j := by
  simpa [literalOf] using h

theorem selected_concat (root : Expr) (is : List Int) (i : Int) :
    selected root (is ++ [i]) = .bitSelect (selected root is) (literalOf i) := by
  rw [selected, List.foldl_append]
  rfl

/-- An element names its root and its indices. -/
theorem selected_inj {root root' : Expr} {is js : List Int} (hl : is.length = js.length)
    (h : selected root is = selected root' js) : root = root' ∧ is = js := by
  induction is using List.reverseRecOn generalizing js with
  | nil =>
    rw [List.length_nil, eq_comm, List.length_eq_zero_iff] at hl
    rw [hl] at h ⊢
    exact ⟨h, rfl⟩
  | append_singleton is i ih =>
    cases js using List.reverseRecOn with
    | nil => simp at hl
    | append_singleton js j =>
      rw [List.length_append, List.length_append] at hl
      rw [selected_concat, selected_concat, Expr.bitSelect.injEq] at h
      obtain ⟨hr, hi⟩ := ih (by simpa using hl) h.1
      exact ⟨hr, by rw [hi, literalOf_inj h.2]⟩

/-- The indices of the element at a position. -/
def indicesAt (ds : List Dim) (q : List Nat) : List Int := List.zipWith Dim.index ds q

/-- The element at a position. -/
def elementAt (root : Expr) (ds : List Dim) (q : List Nat) : Expr := selected root (indicesAt ds q)

/-- The assigns that join an element of the child with one of the parent, in the direction of the port. -/
def joins : PortDirection → Expr → Expr → List ContinuousAssign
  | .input, child, parent => [⟨child, parent⟩]
  | .output, child, parent => [⟨parent, child⟩]
  | .inout, child, parent => [⟨child, parent⟩, ⟨parent, child⟩]

section

variable (X : Elab)

/-- The bounds that a declared range denotes. -/
def Range.dim (r : Range) : Option Dim := do return ⟨← constantBound X r.msb, ← constantBound X r.lsb⟩

/-! ## The pairs, position by position -/

/-- A dimension's indices run from its left bound to its right one. -/
theorem dimensionIndices_of_dim {r : Range} {d : Dim} (h : r.dim X = some d) :
    dimensionIndices X r = some ((List.range d.length).map d.index) := by
  simp only [Range.dim, Option.bind_eq_bind, Option.bind_eq_some_iff, Option.pure_def, Option.some.injEq] at h
  obtain ⟨l, hl, r', hr, rfl⟩ := h
  simp only [dimensionIndices, hl, hr, Option.bind_eq_bind, Option.bind_some, Option.pure_def, Option.some.injEq,
    countBy, Dim.length]
  -- the step is the direction in which `Dim.index` counts
  split
  · have hn : ((r' + -1 - l) / -1).toNat = (l - r').natAbs + 1 := by
      rw [Int.ediv_neg, Int.ediv_one]
      omega
    rw [hn]
    refine List.map_congr_left fun k _ => ?_
    rw [Dim.index, if_pos (by assumption)]
    ring
  · have hn : ((r' + 1 - l) / 1).toNat = (l - r').natAbs + 1 := by
      rw [Int.ediv_one]
      omega
    rw [hn]
    refine List.map_congr_left fun k _ => ?_
    rw [Dim.index, if_neg (by assumption)]
    ring

/-- The pairs join the elements of the same indices, which are the child's. -/
theorem expandPortConnectionPairs_eq {child parent : Expr} {dims : List Range} {cs : List Dim}
    (h : dims.mapM (Range.dim X) = some cs) :
    expandPortConnectionPairs X child parent dims =
      (positions cs).map fun q => (elementAt child cs q, elementAt parent cs q) := by
  induction dims generalizing child parent cs with
  | nil => cases h; rfl
  | cons r dims ih =>
    simp only [List.mapM_cons, Option.bind_eq_bind, Option.bind_eq_some_iff, Option.pure_def, Option.some.injEq] at h
    obtain ⟨d, hd, ds, hds, rfl⟩ := h
    simp only [expandPortConnectionPairs, dimensionIndices_of_dim X hd, ih hds]
    rw [positions, List.map_flatMap, List.flatMap_map]
    apply List.flatMap_congr
    intro p _
    rw [List.map_map]
    rfl

/-- A connection's assigns join the elements of the same indices, which are the child's. -/
theorem connectPort_perm {pre : String} {port : Port} {parent : Expr} {cs : List Dim}
    (h : port.dimensions.mapM (Range.dim X) = some cs) :
    (connectPort X pre port parent).Perm ((positions cs).flatMap fun q =>
      joins port.direction (elementAt (.ident [] (pre ++ "." ++ port.name)) cs q) (elementAt parent cs q)) := by
  rw [connectPort, expandPortConnectionPairs_eq X h, List.map_map, List.map_map]
  cases port.direction with
  | input => simp [joins, Function.comp_def, ← List.map_eq_flatMap]
  | output => simp [joins, Function.comp_def, ← List.map_eq_flatMap]
  | inout =>
    simp only [joins, reduceCtorEq, or_true, if_true]
    have hp := List.map_append_flatMap_perm (positions cs)
      (fun q => (⟨elementAt (.ident [] (pre ++ "." ++ port.name)) cs q, elementAt parent cs q⟩ : ContinuousAssign))
      (fun q => [⟨elementAt parent cs q, elementAt (.ident [] (pre ++ "." ++ port.name)) cs q⟩])
    rw [← List.map_eq_flatMap] at hp
    exact hp

/-! ## Where the positions are joined -/

/-- Every array has an element. -/
theorem exists_mem_positions (ds : List Dim) : ∃ q, q ∈ positions ds := by
  refine ⟨ds.map fun _ => 0, mem_positions.mpr ?_⟩
  rw [List.forall₂_map_left_iff, List.forall₂_same]
  exact fun d _ => Nat.succ_pos _

/-- Bounds are told by the indices of the first and the last element. -/
theorem eq_of_indicesAt {cs ps : List Dim} (hl : cs.map Dim.length = ps.map Dim.length)
    (h : ∀ q ∈ positions cs, indicesAt cs q = indicesAt ps q) : cs = ps := by
  induction cs generalizing ps with
  | nil =>
    rw [List.map_nil, eq_comm, List.map_eq_nil_iff] at hl
    exact hl.symm
  | cons c cs ih =>
    cases ps with
    | nil => cases hl
    | cons p ps =>
      rw [List.map_cons, List.map_cons, List.cons.injEq] at hl
      have hcons : ∀ k < c.length, ∀ q ∈ positions cs, c.index k = p.index k ∧ indicesAt cs q = indicesAt ps q := by
        intro k hk q hq
        have hm : k :: q ∈ positions (c :: cs) :=
          mem_positions.mpr (.cons hk (mem_positions.mp hq))
        simpa [indicesAt] using h _ hm
      have hpos : 0 < c.length := Nat.succ_pos _
      obtain ⟨q, hq⟩ := exists_mem_positions cs
      have hleft := (hcons 0 hpos q hq).1
      have hright := (hcons (c.length - 1) (by omega) q hq).1
      rw [Dim.index_zero, Dim.index_zero] at hleft
      rw [Dim.index_last, hl.1, Dim.index_last] at hright
      have hcp : c = p := by
        cases c
        cases p
        simp_all
      rw [hcp, ih hl.2 fun q hq => (hcons 0 hpos q hq).2]

/-- The lengths of an element's indices are the number of dimensions. -/
theorem length_indicesAt {ds : List Dim} {q : List Nat} (h : q.length = ds.length) :
    (indicesAt ds q).length = ds.length := by
  rw [indicesAt, List.length_zipWith, h, Nat.min_self]

/-- An assign that joins elements of the same indices joins no others. -/
theorem indices_of_joins {dir : PortDirection} {child parent : Expr} {is is' js : List Int}
    (hi : is.length = js.length) (hi' : is'.length = js.length) {a : ContinuousAssign}
    (h : a ∈ joins dir (selected child is) (selected parent is'))
    (h' : a ∈ joins dir (selected child js) (selected parent js)) : is = is' := by
  -- whichever of the two assigns, each side of it is an element of indices `js`
  have hside : ∀ e e' : Expr, selected child is = selected e js → selected parent is' = selected e' js → is = is' :=
    fun e e' he he' => (selected_inj hi he).2.trans (selected_inj hi' he').2.symm
  cases dir with
  | input =>
    simp only [joins, List.mem_singleton] at h h'
    subst h
    rw [ContinuousAssign.mk.injEq] at h'
    exact hside _ _ h'.1 h'.2
  | output =>
    simp only [joins, List.mem_singleton] at h h'
    subst h
    rw [ContinuousAssign.mk.injEq] at h'
    exact hside _ _ h'.2 h'.1
  | inout =>
    simp only [joins, List.mem_cons, List.not_mem_nil, or_false] at h h'
    rcases h with rfl | rfl <;> rw [ContinuousAssign.mk.injEq, ContinuousAssign.mk.injEq] at h' <;>
      rcases h' with h' | h'
    · exact hside _ _ h'.1 h'.2
    · exact hside _ _ h'.1 h'.2
    · exact hside _ _ h'.2 h'.1
    · exact hside _ _ h'.2 h'.1

/-- Every element is joined by an assign. -/
theorem exists_mem_joins (dir : PortDirection) (child parent : Expr) : ∃ a, a ∈ joins dir child parent := by
  cases dir <;> exact ⟨_, List.mem_cons_self⟩

/-- A connection joins the elements of equal positions in the direction of the port, each once, exactly when both
sides are declared with the same bounds. -/
theorem joins_positions_iff {pre : String} {port : Port} {parent : Expr} {cs ps : List Dim}
    (hc : port.dimensions.mapM (Range.dim X) = some cs) (hl : cs.map Dim.length = ps.map Dim.length) :
    (connectPort X pre port parent).Perm ((positions cs).flatMap fun q =>
        joins port.direction (elementAt (.ident [] (pre ++ "." ++ port.name)) cs q) (elementAt parent ps q)) ↔
      cs = ps := by
  constructor
  · intro h
    apply eq_of_indicesAt hl
    intro q hq
    obtain ⟨a, ha⟩ := exists_mem_joins port.direction
      (elementAt (.ident [] (pre ++ "." ++ port.name)) cs q) (elementAt parent ps q)
    have hmem := h.symm.subset (List.mem_flatMap.mpr ⟨q, hq, ha⟩)
    obtain ⟨q', hq', ha'⟩ := List.mem_flatMap.mp ((connectPort_perm X hc).subset hmem)
    have hn : cs.length = ps.length := by simpa using congrArg List.length hl
    have hlen := (mem_positions.mp hq).length_eq
    have hlen' := (mem_positions.mp hq').length_eq
    refine indices_of_joins ?_ ?_ ha ha'
    · rw [length_indicesAt hlen, length_indicesAt hlen']
    · rw [length_indicesAt (hlen.trans hn), length_indicesAt hlen', hn]
  · rintro rfl
    exact connectPort_perm X hc

end

/-- No function and no text of digits. -/
def noFunctions : Elab := ⟨fun _ => "", fun _ _ _ => none, fun _ _ => none⟩

/-- `input a [0:1]`. -/
def risingPort : Port := ⟨"a", .input, [⟨literalOf 0, literalOf 1⟩]⟩

theorem risingPort_dims (X : Elab) : risingPort.dimensions.mapM (Range.dim X) = some [⟨0, 1⟩] := by
  simp [risingPort, Range.dim, constantBound, literalOf, evalConstExpr, elabLiteral, ConstVal.int?]

theorem joins_positions_rising :
    (connectPort noFunctions "u" risingPort (.ident [] "b")).Perm ((positions [⟨0, 1⟩]).flatMap fun q =>
        joins .input (elementAt (.ident [] ("u" ++ "." ++ "a")) [⟨0, 1⟩] q)
          (elementAt (.ident [] "b") [⟨1, 0⟩] q)) ↔
      [(⟨0, 1⟩ : Dim)] = [⟨1, 0⟩] :=
  joins_positions_iff noFunctions (risingPort_dims noFunctions) (by decide)

/-- `input a [0:1]` connected to `b [1:0]`: the first element of the one is not joined with the first of the other. -/
theorem reversed_not_joined :
    ¬ (connectPort noFunctions "u" risingPort (.ident [] "b")).Perm ((positions [⟨0, 1⟩]).flatMap fun q =>
        joins .input (elementAt (.ident [] ("u" ++ "." ++ "a")) [⟨0, 1⟩] q)
          (elementAt (.ident [] "b") [⟨1, 0⟩] q)) := by
  intro h
  have hfirst := h.symm.subset (List.mem_flatMap.mpr
    ⟨[0], mem_positions.mpr (.cons (by decide) .nil), List.mem_singleton.mpr rfl⟩)
  obtain ⟨q, hm, hq⟩ := List.mem_flatMap.mp
    ((connectPort_perm noFunctions (risingPort_dims noFunctions)).subset hfirst)
  simp only [positions, Dim.length, List.mem_flatMap, List.mem_map, List.mem_singleton, exists_eq_left] at hm
  obtain ⟨k, -, rfl⟩ := hm
  simp only [joins, risingPort, elementAt, indicesAt, selected, List.zipWith_cons_cons, List.zipWith_nil_left,
    List.foldl_cons, List.foldl_nil, List.mem_singleton, ContinuousAssign.mk.injEq, Expr.bitSelect.injEq, true_and] at hq
  cases (literalOf_inj hq.1).trans (literalOf_inj hq.2).symm

end Veriforge.Ports

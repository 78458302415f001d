import Mathlib.Tactic.Choose
import Veriforge.Refactor.Collapse

/-! # What a wrapper connects

The bits of the parent expressions that a wrapper instance is connected to, and of the ports of the child in it, are
linked through the signals of the wrapper. Collapsing the wrapper links the child to parent expressions directly. The
two links are the same where the wrapper only passes on what one connection gives it. -/

namespace Veriforge.Refactor

open Graph

/-! ## Bits -/

/-- The width of a signal or an expression, and whether it is signed. -/
structure Shape where
  bits : Nat
  signed : Bool
  deriving DecidableEq

section Bits

variable {Bit : Type} (zero : Bit)

/-- The bits of a value of this shape, and those with which it is extended. -/
def Shape.extend (s : Shape) (v : Nat → Bit) (i : Nat) : Bit :=
  if i < s.bits then v i else if s.signed then v (s.bits - 1) else zero

/-- The target is assigned the source. -/
def Drives (source target : Shape) (v w : Nat → Bit) : Prop := ∀ i, i < target.bits → w i = source.extend zero v i

/-- What is outside an instance and a port of it with this direction are connected. -/
def Direction.Links (outer inner : Shape) (v w : Nat → Bit) : Direction → Prop
  | .input => Drives zero outer inner v w
  | .output => Drives zero inner outer w v
  | .inout => ∀ i, i < outer.bits → i < inner.bits → v i = w i

/-- A value whose lowest bit is given, and which has no other bits. -/
def bit0 (b : Bit) (i : Nat) : Bit := if i = 0 then b else zero

variable {zero}

theorem Shape.extend_of_lt {s : Shape} {v : Nat → Bit} {i : Nat} (h : i < s.bits) : s.extend zero v i = v i := if_pos h

theorem drives_same {s : Shape} {v w : Nat → Bit} : Drives zero s s v w ↔ ∀ i, i < s.bits → w i = v i :=
  forall₂_congr fun i hi => by rw [Shape.extend_of_lt hi]

theorem links_same {d : Direction} {s : Shape} {v w : Nat → Bit} :
    d.Links zero s s v w ↔ ∀ i, i < s.bits → v i = w i := by
  cases d with
  | input => exact drives_same.trans (forall₂_congr fun _ _ => eq_comm)
  | output => exact drives_same
  | inout => exact ⟨fun h i hi => h i hi hi, fun h i hi _ => h i hi⟩

/-- The lowest bit is never lost. -/
theorem Drives.lsb {s t : Shape} {v w : Nat → Bit} (h : Drives zero s t v w) (hs : 0 < s.bits) (ht : 0 < t.bits) :
    v 0 = w 0 := by
  rw [h 0 ht, Shape.extend_of_lt hs]

theorem Direction.Links.lsb {d : Direction} {s t : Shape} {v w : Nat → Bit} (h : d.Links zero s t v w)
    (hs : 0 < s.bits) (ht : 0 < t.bits) : v 0 = w 0 := by
  cases d with
  | input => exact Drives.lsb h hs ht
  | output => exact (Drives.lsb h ht hs).symm
  | inout => exact h 0 hs ht

theorem drives_zero (s t : Shape) : Drives zero s t (fun _ => zero) fun _ => zero := by
  intro i _
  unfold Shape.extend
  split_ifs <;> rfl

end Bits

/-! ## Links -/

/-- The module, the parameters and the array of an instance. -/
def Instance.bare {Expr : Type} (inst : Instance Expr) : Instance Expr :=
  { inst with instanceName := "", portConnections := [] }

/-- The port that a connection names, or its number. -/
def PortConnection.formal {Expr : Type} (conn : PortConnection Expr) (index : Nat) : Option String ⊕ Nat :=
  if conn.isNamed then .inl conn.portName else .inr index

/-- What a language says of declarations and expressions: their widths, the constants that declarations are initialised
with, how many elements an array of instances has, and which histories of an expression of some shape and of the port
of an instance are linked by a connection. A history gives one value of type `Bit` to each bit. -/
structure Wiring (Expr Item Bit Formal : Type) extends Syntax Expr Item where
  zero : Bit
  portShape : Port Expr → Shape
  declShape : Item → Shape
  exprShape : Expr → Shape
  portShape_pos : ∀ p, 0 < (portShape p).bits
  declShape_pos : ∀ d, 0 < (declShape d).bits
  exprShape_pos : ∀ e, 0 < (exprShape e).bits
  portInitial : Port Expr → Option (Nat → Bit)
  declInitial : Item → Option (Nat → Bit)
  elements : Option (Range Expr) → Nat
  elements_pos : ∀ r, 0 < elements r
  names : Expr → List String
  imported : List Item → List String
  itemNames : Item → List String
  linked : Instance Expr → Option String ⊕ Nat → Shape → (Nat → Bit) → Formal → Prop
  linked_congr : ∀ inst f s v w y, (∀ i, i < s.bits → v i = w i) → (linked inst f s v y ↔ linked inst f s w y)

variable {Expr Item Bit Formal : Type}

/-- The names that the assigns of the module connect. -/
def Aliased (S : Syntax Expr Item) (m : Module Expr Item) : String → String → Prop :=
  UnionFind.Connected (m.body.continuousAssigns.filterMap (aliasPair S))

/-- The port of the wrapper that a connection of its instance is about. -/
def wrapperPort (wrapper : Module Expr Item) (conn : PortConnection Expr) (index : Nat) : Option (Port Expr) :=
  if conn.isNamed then conn.portName.bind fun n => wrapper.ports.find? (·.name == n) else wrapper.ports[index]?

/-- The instance connects the port of this name to this expression. -/
def Attached (wrapper : Module Expr Item) (inst : Instance Expr) (portName : String) (e : Expr) : Prop :=
  ∃ k conn p, inst.portConnections[k]? = some conn ∧ wrapperPort wrapper conn k = some p ∧ p.name = portName ∧
    conn.expression = some e

section Spec

variable (L : Wiring Expr Item Bit Formal)

/-- The shape of a signal of the module, which is one bit where it is not declared. -/
def Wiring.shapeOf (m : Module Expr Item) (n : String) : Shape :=
  match m.ports.find? (·.name == n) with
  | some p => L.portShape p
  | none =>
      match (m.body.nets ++ m.body.vars).find? (·.1 == n) with
      | some d => L.declShape d.2
      | none => ⟨1, false⟩

theorem Wiring.shapeOf_pos (m : Module Expr Item) (n : String) : 0 < (L.shapeOf m n).bits := by
  unfold Wiring.shapeOf
  split
  · exact L.portShape_pos _
  · split
    · exact L.declShape_pos _
    · exact Nat.one_pos

/-- The constant that a signal of the module is initialised with. -/
def Wiring.initialOf (m : Module Expr Item) (n : String) : Option (Nat → Bit) :=
  ((m.ports.find? (·.name == n)).bind L.portInitial).or
    (((m.body.nets ++ m.body.vars).find? (·.1 == n)).bind fun d => L.declInitial d.2)

/-- The signals of the wrapper, the expressions that its instance is connected to and the ports of the child have
histories that fit: at each connection of the wrapper and of the child, at each assign, and at each declaration with an
initial value, which nothing else in a wrapper changes. -/
structure Solves (wrapper : Module Expr Item) (inst child : Instance Expr) (signal : String → Nat → Bit)
    (x : Expr → Nat → Bit) (y : Nat → Formal) : Prop where
  port : ∀ k conn p e, inst.portConnections[k]? = some conn → wrapperPort wrapper conn k = some p →
    conn.expression = some e →
      p.direction.Links L.zero (L.exprShape e) (L.shapeOf wrapper p.name) (x e) (signal p.name)
  assign : ∀ l r, (l, r) ∈ wrapper.body.continuousAssigns.filterMap (aliasPair L.toSyntax) →
    Drives L.zero (L.shapeOf wrapper r) (L.shapeOf wrapper l) (signal r) (signal l)
  initial : ∀ n v, L.initialOf wrapper n = some v → ∀ i, i < (L.shapeOf wrapper n).bits → signal n i = v i
  child : ∀ k conn s, child.portConnections[k]? = some conn → conn.expression.bind L.simpleIdentifierName = some s →
    L.linked child.bare (conn.formal k) (L.shapeOf wrapper s) (signal s) (y k)

/-- The expressions and the ports of the child are linked through the wrapper. -/
def Through (wrapper : Module Expr Item) (inst child : Instance Expr) (x : Expr → Nat → Bit) (y : Nat → Formal) : Prop :=
  ∃ signal, Solves L wrapper inst child signal x y

/-- The expressions and the ports of an instance of the parent are linked. -/
def Direct (inst : Instance Expr) (x : Expr → Nat → Bit) (y : Nat → Formal) : Prop :=
  ∀ k conn e, inst.portConnections[k]? = some conn → conn.expression = some e →
    L.linked inst.bare (conn.formal k) (L.exprShape e) (x e) (y k)

/-- The names that are declared in the module. -/
def Wiring.scopeNames (m : Module Expr Item) : List String :=
  m.declaredNames ++ (m.body.typedefs ++ m.body.interfaceInstances).flatMap L.itemNames

/-- The names in the parameters and the array of an instance. -/
def Wiring.constantNames (inst : Instance Expr) : List String :=
  inst.parameterBindings.flatMap (fun b => (b.value.map L.names).getD []) ++
    (inst.instanceArray.map fun r => L.names r.msb ++ L.names r.lsb).getD []

/-- Connectivity is preserved: of the parent only the wrapper instance changes, which becomes an instance of what the
child is an instance of. Its ports are linked to the same expressions as through the wrapper, whatever their values,
and so are the expressions among each other. It names nothing that belongs to the wrapper, no other name of the parent
is its name, and there are as many instances of it as there were. -/
structure Preserved (parent : Module Expr Item) (k : Nat) (inst : Instance Expr) (wrapper : Module Expr Item)
    (child : Instance Expr) (parent' : Module Expr Item) (newChild : Instance Expr) : Prop where
  edited : parent' =
    { parent with body := { parent.body with instances := parent.body.instances.set k newChild } }
  target : newChild.bare = child.bare
  linked : ∀ x y, Through L wrapper inst child x y ↔ Direct L newChild x y
  parentExpressions : ∀ conn ∈ newChild.portConnections, ∃ c ∈ inst.portConnections, c.expression = conn.expression
  parentConstants : ∀ n ∈ L.constantNames newChild, n ∉ L.scopeNames wrapper ++ L.imported wrapper.imports
  fresh : (L.scopeNames parent').count newChild.instanceName = 1
  elements : L.elements newChild.instanceArray = L.elements inst.instanceArray * L.elements child.instanceArray

/-- Every connection of the instance is about a port. -/
def NamesPorts (wrapper : Module Expr Item) (inst : Instance Expr) : Prop :=
  ∀ conn ∈ inst.portConnections, conn.isNamed = true → ∀ n, conn.portName = some n → n ∈ wrapper.ports.map (·.name)

/-- Every wrapper signal that the child is connected to is declared and an alias of a connected port, no two ports that
are connected to different expressions are aliases, none of them is an alias of an initialised signal, and the new name
and the constants of the child mean nothing else. -/
structure Collapsible (parent : Module Expr Item) (k : Nat) (inst : Instance Expr) (wrapper : Module Expr Item)
    (child : Instance Expr) : Prop where
  single : L.elements inst.instanceArray = 1
  fresh : inst.instanceName ++ "__" ++ child.instanceName ∉
    L.scopeNames { parent with body := { parent.body with instances := parent.body.instances.eraseIdx k } }
  constants : ∀ n ∈ L.constantNames child, n ∉ L.scopeNames wrapper ++ L.imported wrapper.imports
  reached : ∀ conn ∈ child.portConnections, ∀ s, conn.expression.bind L.simpleIdentifierName = some s →
    ∃ p e, Attached wrapper inst p e ∧ Aliased L.toSyntax wrapper p s ∧
      (s ∈ wrapper.signalNames ∨ conn.expression = some e)
  alone : ∀ p e p' e', Attached wrapper inst p e → Attached wrapper inst p' e' → Aliased L.toSyntax wrapper p p' → e = e'
  undriven : ∀ p e s, Attached wrapper inst p e → Aliased L.toSyntax wrapper p s → L.initialOf wrapper s = none

/-- The instance connects ports only, the signals that are aliases of a connected port have the shape of its
expression, and aliases of ports that are not connected have no initial value either. -/
structure PassesOn (inst : Instance Expr) (wrapper : Module Expr Item) : Prop where
  namesPorts : NamesPorts wrapper inst
  shape : ∀ p e s, Attached wrapper inst p e → Aliased L.toSyntax wrapper p s → L.shapeOf wrapper s = L.exprShape e
  initial : ∀ p ∈ wrapper.ports, ∀ s, Aliased L.toSyntax wrapper p.name s → L.initialOf wrapper s = none

/-- The ports of the child can be told apart by what they are linked to: each link shows the lowest bit of the
expression, and that bit can be any. -/
structure Observable (child : Instance Expr) : Prop where
  lsb : ∃ lsb : Nat → Formal → Bit, ∀ k (conn : PortConnection Expr) s v y, child.portConnections[k]? = some conn →
    0 < s.bits → L.linked child.bare (conn.formal k) s v y → lsb k y = v 0
  free : ∀ k (conn : PortConnection Expr) s b, child.portConnections[k]? = some conn →
    ∃ y, L.linked child.bare (conn.formal k) s (bit0 L.zero b) y
  one : ∃ b, b ≠ L.zero

end Spec

end Veriforge.Refactor

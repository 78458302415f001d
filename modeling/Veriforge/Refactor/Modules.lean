import Mathlib.Algebra.Group.Nat.Defs
import Mathlib.Algebra.Ring.Int.Defs
import Mathlib.Data.List.Basic
import Mathlib.Data.Set.Basic

/-! # Modules and what they mean

The modules of `model/design.py` as the refactorings read and write them, over any type of constant expressions and
of other items, and what a module means: its parameters and ports under an override of the parameters, and the
histories of its ports. -/

namespace Veriforge.Refactor

/-! ## Modules -/

/-- `Range` -/
structure Range (Expr : Type) where
  msb : Expr
  lsb : Expr
  deriving DecidableEq

/-- `Parameter` -/
structure Parameter (Expr : Type) where
  name : String
  paramType : Option String
  width : Option (Range Expr)
  signed : Bool
  defaultValue : Option Expr
  isLocal : Bool
  deriving DecidableEq

/-- `PortDirection` -/
inductive Direction
  | input | output | inout
  deriving DecidableEq

/-- `Port` -/
structure Port (Expr : Type) where
  name : String
  direction : Direction
  netType : Option String
  dataType : Option String
  width : Option (Range Expr)
  dimensions : List (Range Expr)
  packedDimCount : Nat
  packedOnly : Bool
  signed : Bool
  defaultValue : Option Expr
  deriving DecidableEq

/-- `ParameterBinding` -/
structure ParameterBinding (Expr : Type) where
  name : Option String
  value : Option Expr
  deriving DecidableEq

/-- `PortConnection` -/
structure PortConnection (Expr : Type) where
  portName : Option String
  expression : Option Expr
  isNamed : Bool
  deriving DecidableEq

/-- `Instance` -/
structure Instance (Expr : Type) where
  moduleName : String
  instanceName : String
  instanceArray : Option (Range Expr)
  hasParameterOverride : Bool
  parameterBindings : List (ParameterBinding Expr)
  portConnections : List (PortConnection Expr)
  deriving DecidableEq

/-- The fields of a `Module` below its header: nets, variables, functions and tasks with their names, generate
blocks with the names they declare. -/
structure Body (Expr Item : Type) where
  nets : List (String × Item)
  vars : List (String × Item)
  continuousAssigns : List Item
  alwaysBlocks : List Item
  initialBlocks : List Item
  instances : List (Instance Expr)
  functions : List (String × Item)
  tasks : List (String × Item)
  typedefs : List Item
  generateBlocks : List (List String × Item)
  specifyBlocks : List Item
  interfaceInstances : List Item
  defparams : List Item
  deriving DecidableEq

/-- `Module` -/
structure Module (Expr Item : Type) where
  name : String
  parameters : List (Parameter Expr)
  ports : List (Port Expr)
  imports : List Item
  body : Body Expr Item
  deriving DecidableEq

/-- A body with nothing but instances. -/
def Body.ofInstances {Expr Item : Type} (instances : List (Instance Expr)) : Body Expr Item :=
  ⟨[], [], [], [], [], instances, [], [], [], [], [], [], []⟩

/-! ## Constants -/

/-- The values of names. -/
abbrev ConstEnv := String → Option Int

/-- Constant expressions: the names they mention, and their values. -/
structure ConstExprs (Expr : Type) where
  identifier : String → Expr
  names : Expr → List String
  eval : Expr → ConstEnv → Option Int
  identifier_injective : Function.Injective identifier
  eval_identifier : ∀ n env, eval (identifier n) env = env n
  eval_congr : ∀ e env env', (∀ n ∈ names e, env n = env' n) → eval e env = eval e env'

variable {Expr Item Wave : Type}

section Header

variable (X : ConstExprs Expr)

def Range.names (r : Range Expr) : List String := X.names r.msb ++ X.names r.lsb

def Range.eval (r : Range Expr) (env : ConstEnv) : Option (Int × Int) :=
  (X.eval r.msb env).bind fun msb => (X.eval r.lsb env).map fun lsb => (msb, lsb)

/-- The names that a declaration of a parameter mentions. -/
def Parameter.names (p : Parameter Expr) : List String :=
  (p.width.map (Range.names X)).getD [] ++ (p.defaultValue.map X.names).getD []

/-- The value that a parameter is given: its override, or what is declared. -/
def Parameter.given (p : Parameter Expr) (overrides env : ConstEnv) : Option Int :=
  let declared := p.defaultValue.bind fun e => X.eval e env
  if p.isLocal then declared else (overrides p.name).or declared

/-- A value in so many bits. -/
def truncate (signed : Bool) (bits : Nat) (v : Int) : Int := if signed then v.bmod (2 ^ bits) else v % 2 ^ bits

/-- The bits and the sign of an integer type. -/
def atomType (signed : Bool) (paramType : Option String) : Option (Nat × Bool) :=
  match paramType with
  | some "byte" => some (8, signed)
  | some "shortint" => some (16, signed)
  | some "int" => some (32, signed)
  | some "integer" => some (32, signed)
  | some "longint" => some (64, signed)
  | some "time" => some (64, false)
  | _ => none

/-- A value in the declared type of the parameter. -/
def Parameter.convert (p : Parameter Expr) (env : ConstEnv) (v : Int) : Option Int :=
  match p.width with
  | some r => (r.eval X env).map fun b => truncate p.signed ((b.1 - b.2).natAbs + 1) v
  | none =>
      match atomType p.signed p.paramType with
      | some t => some (truncate t.2 t.1 v)
      | none => some v

/-- The names that a declaration of a port mentions. -/
def Port.names (p : Port Expr) : List String :=
  (p.width.map (Range.names X)).getD [] ++ p.dimensions.flatMap (Range.names X) ++
    (p.defaultValue.map X.names).getD []

/-- A port with its constants evaluated. -/
structure PortShape where
  name : String
  direction : Direction
  netType : Option String
  dataType : Option String
  width : Option (Int × Int)
  dimensions : List (Int × Int)
  packedDimCount : Nat
  packedOnly : Bool
  signed : Bool
  defaultValue : Option Int
  deriving DecidableEq

/-- A part that need not be there, evaluated. -/
def evalPart {α β : Type} (f : α → Option β) : Option α → Option (Option β)
  | none => some none
  | some a => (f a).map some

def Port.shape (p : Port Expr) (env : ConstEnv) : Option PortShape :=
  (evalPart (fun r : Range Expr => r.eval X env) p.width).bind fun width =>
    (p.dimensions.mapM fun r : Range Expr => r.eval X env).bind fun dimensions =>
      (evalPart (fun e => X.eval e env) p.defaultValue).map fun defaultValue =>
        { name := p.name, direction := p.direction, netType := p.netType, dataType := p.dataType, width, dimensions
          packedDimCount := p.packedDimCount, packedOnly := p.packedOnly, signed := p.signed, defaultValue }

/-- The names that the header of a module mentions: its parameters that can be overridden, and its ports. -/
def Module.headerNames (m : Module Expr Item) : List String :=
  (m.parameters.filter (!·.isLocal)).flatMap (Parameter.names X) ++ m.ports.flatMap (Port.names X)

end Header

/-! ## Elaboration -/

/-- What a language says of the parts that are not modelled: the constants of imported packages, the histories of
the ports that a body gives rise to, and those that an instance links. -/
structure Semantics (Expr Item Wave : Type) where
  exprs : ConstExprs Expr
  imported : List Item → ConstEnv
  /-- The histories of the ports of a module with this body, constants and ports. -/
  run : Body Expr Item → ConstEnv → List PortShape → Set (String → Wave)
  run_congr : ∀ body env shapes (w w' : String → Wave), (∀ p ∈ shapes, w p.name = w' p.name) →
    w ∈ run body env shapes → w' ∈ run body env shapes
  /-- The histories of a signal and of the port that it is connected to. -/
  linked : PortShape → PortShape → Wave → Wave → Prop
  linked_self : ∀ p w w', linked p p w w' ↔ w = w'

variable (S : Semantics Expr Item Wave)

/-- The environment is an elaboration of the module under the overrides: every name that is mentioned is declared
or imported, no parameter depends on itself, and each has the value it is given. -/
structure Elaborated (m : Module Expr Item) (overrides env : ConstEnv) : Prop where
  value : ∀ p ∈ m.parameters, ∃ v, (p.given S.exprs overrides env).bind (p.convert S.exprs env) = some v ∧
    env p.name = some v
  other : ∀ n, (∀ p ∈ m.parameters, p.name ≠ n) → env n = S.imported m.imports n
  resolved : ∀ n, n ∈ m.parameters.flatMap (Parameter.names S.exprs) ++ m.ports.flatMap (Port.names S.exprs) →
    (env n).isSome
  acyclic : ∃ rank : String → Nat, ∀ p ∈ m.parameters, ∀ n ∈ p.names S.exprs, (∃ q ∈ m.parameters, q.name = n) →
    rank n < rank p.name

/-- The ports of a module and their histories under the overrides. -/
def behaviours (m : Module Expr Item) (overrides : ConstEnv) : Set (List PortShape × (String → Wave)) :=
  {b | ∃ env, Elaborated S m overrides env ∧ m.ports.mapM (Port.shape S.exprs · env) = some b.1 ∧
    b.2 ∈ S.run m.body env b.1}

/-- `dialect` -/
inductive Dialect
  | verilog2005 | sv
  deriving DecidableEq

/-- An instance may drive the port: it has no initial value, and in Verilog-2005 it is a net. -/
def Drivable (dialect : Dialect) (dataType : Option String) (initialised : Bool) : Prop :=
  initialised = false ∧ (dialect = .verilog2005 → dataType = none)

instance (dialect : Dialect) (dataType : Option String) (initialised : Bool) :
    Decidable (Drivable dialect dataType initialised) := by
  unfold Drivable
  infer_instance

/-- The value that an instance gives to a parameter, in the environment of its module. -/
def Instance.override (inst : Instance Expr) (env : ConstEnv) (n : String) : Option Int :=
  if inst.hasParameterOverride = false then none
  else (inst.parameterBindings.find? fun b => b.name == some n).bind fun b => b.value.bind fun e => S.exprs.eval e env

/-- A port of the child that the instance connects, the port of the module it is connected to, and their histories. -/
def Connects (dialect : Dialect) (shapes childShapes : List PortShape) (w childW : String → Wave)
    (conn : PortConnection Expr) : Prop :=
  ∃ n portName p q, conn.isNamed = true ∧ conn.expression = some (S.exprs.identifier n) ∧
    conn.portName = some portName ∧
    shapes.find? (·.name == n) = some p ∧ childShapes.find? (·.name == portName) = some q ∧
    (q.direction = .output → Drivable dialect p.dataType p.defaultValue.isSome) ∧
    S.linked p q (w n) (childW portName)

/-- The ports of a module whose body is one instance of `child`, and their histories. -/
def instanceBehaviours (dialect : Dialect) (m child : Module Expr Item) (overrides : ConstEnv) :
    Set (List PortShape × (String → Wave)) :=
  {b | ∃ env inst, m.body = .ofInstances [inst] ∧ inst.moduleName = child.name ∧ Elaborated S m overrides env ∧
    m.ports.mapM (Port.shape S.exprs · env) = some b.1 ∧
    ∃ c ∈ behaviours S child (inst.override S env), ∀ conn ∈ inst.portConnections,
      Connects S dialect b.1 c.1 b.2 c.2 conn}

end Veriforge.Refactor

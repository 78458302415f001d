import Mathlib.Data.List.Basic

/-! # Drivers and loads

The connectivity analysis of `analysis/resolver.py`: for each signal of a module, what drives it and what reads it. The
model of a design keeps what the analysis and the execution look at; an operator, a cast or a replication is its
operands. -/

namespace Veriforge.Analysis

/-! ## Designs -/

/-- The hierarchy of an identifier, and its name. -/
abbrev Path := List String × String

/-- An expression. A literal is a `node` without operands. -/
inductive Expr
  | identifier (hierarchy : List String) (name : String)
  | bitSelect (target index : Expr)
  | rangeSelect (target msb lsb : Expr)
  | partSelect (target base width : Expr)
  | concatenation (parts : List Expr)
  | streamingConcatenation (parts : List Expr) (sliceSize : Expr)
  | functionCall (name : String) (isSystem : Bool) (arguments : List Expr)
  | node (operands : List Expr)

mutual

/-- A statement; `null` is the `None` of a missing body. -/
inductive Statement
  | null
  | blockingAssign (lhs rhs : Expr)
  | nonblockingAssign (lhs rhs : Expr)
  | seqBlock (localVars : List (String × Expr)) (statements : List Statement)
  | parBlock (localVars : List (String × Expr)) (statements : List Statement)
  | ifStatement (condition : Expr) (thenBody elseBody : Statement)
  | caseStatement (expression : Expr) (items : List CaseItem)
  | forLoop (declaresVar : Bool) (initLhs initRhs condition updateLhs updateRhs : Expr) (body : Statement)
  | whileLoop (condition : Expr) (body : Statement)
  | foreverLoop (body : Statement)
  | repeatLoop (count : Expr) (body : Statement)
  | systemTaskCall (taskName : String) (arguments : List Expr)
  | taskEnable (taskName : String) (arguments : List Expr)
  | waitStatement (condition : Expr) (body : Statement)
  | delayControl (delay : Expr) (body : Statement)
  | eventControl (events : List Expr) (body : Statement)
  | disableStatement
  | eventTrigger (event : String)

inductive CaseItem
  | mk (values : List Expr) (body : Statement)

end

/-- `PortDirection` -/
inductive PortDirection
  | input | output | inout
  deriving DecidableEq

structure Port where
  name : String
  direction : PortDirection

/-- A function or a task that a module can call. -/
structure Routine where
  name : String
  ports : List Port
  locals : List (String × Expr)
  body : Statement

/-- `PortConnection`; an empty port name is no name. -/
structure PortConnection where
  isNamed : Bool
  portName : String
  expression : Option Expr

structure Instance where
  moduleName : String
  portConnections : List PortConnection

/-- What may drive and read signals. -/
inductive Source
  | continuousAssign (lhs rhs : Expr)
  | alwaysBlock (sensitivityList : List Expr) (body : Statement)
  | initialBlock (body : Statement)
  | instantiation (inst : Instance)

structure Module where
  name : String
  ports : List Port
  parameters : List String
  nets : List String
  vars : List String
  continuousAssigns : List (Expr × Expr)
  alwaysBlocks : List (List Expr × Statement)
  initialBlocks : List Statement
  instances : List Instance
  /-- The sources inside generate blocks, with the names that their blocks declare. -/
  generated : List (List String × Source)
  tasks : List Routine
  functions : List Routine

abbrev Design := List Module

/-- A signal: the position of its module, and its name. A port that is declared again as a net or a variable is that
net or variable. -/
abbrev Signal := Nat × String

/-- A source: the position of its module, and its own. -/
abbrev SourceId := Nat × Nat

/-- `_build_symbol_table` and `_signal_for_name`: variables hide nets, which hide parameters, which hide ports. -/
def Module.signalForName (m : Module) (name : String) : Bool :=
  if name ∈ m.vars then true
  else if name ∈ m.nets then true
  else if name ∈ m.parameters then false
  else decide (name ∈ m.ports.map Port.name)

/-- `link_instances`: of the modules of one name, the last. -/
def resolvedModule (d : Design) (inst : Instance) : Option Module :=
  d.reverse.find? fun m => m.name == inst.moduleName

/-- `_resolve_inst_port_connections` -/
def resolvedPort (d : Design) (inst : Instance) (conn : PortConnection) (i : Nat) : Option Port :=
  (resolvedModule d inst).bind fun target =>
    if conn.isNamed then
      if conn.portName ≠ "" then target.ports.find? fun p => p.name == conn.portName else none
    else target.ports[i]?

/-! ## The analysis -/

mutual

/-- The names that `_add_drivers_from_expression` takes for driven. -/
def Expr.driverNames : Expr → List String
  | .identifier _ name => [name]
  | .bitSelect target _ => target.driverNames
  | .rangeSelect target _ _ => target.driverNames
  | .concatenation parts => driverNamesAll parts
  | _ => []

def driverNamesAll : List Expr → List String
  | [] => []
  | e :: es => e.driverNames ++ driverNamesAll es

end

mutual

/-- The identifiers of `expr.walk()`, for `_add_loads_from_expression`. -/
def Expr.walkNames : Expr → List String
  | .identifier _ name => [name]
  | .bitSelect target index => target.walkNames ++ index.walkNames
  | .rangeSelect target msb lsb => target.walkNames ++ msb.walkNames ++ lsb.walkNames
  | .partSelect target base width => target.walkNames ++ base.walkNames ++ width.walkNames
  | .concatenation parts => walkNamesAll parts
  | .streamingConcatenation parts sliceSize => walkNamesAll parts ++ sliceSize.walkNames
  | .functionCall _ _ arguments => walkNamesAll arguments
  | .node operands => walkNamesAll operands

def walkNamesAll : List Expr → List String
  | [] => []
  | e :: es => e.walkNames ++ walkNamesAll es

end

/-- What the analysis finds: a name that is driven, or one that is read. -/
inductive Visit
  | driver (name : String)
  | load (name : String)
  deriving DecidableEq

/-- `_add_drivers_from_expression` -/
def Expr.drivers (e : Expr) : List Visit := e.driverNames.map .driver

/-- `_add_loads_from_expression` -/
def Expr.loads (e : Expr) : List Visit := e.walkNames.map .load

/-- The loads of several expressions. -/
def loadsAll (es : List Expr) : List Visit := (walkNamesAll es).map .load

mutual

/-- `_analyze_statement` -/
def Statement.visits : Statement → List Visit
  | .null => []
  | .blockingAssign lhs rhs => lhs.drivers ++ rhs.loads
  | .nonblockingAssign lhs rhs => lhs.drivers ++ rhs.loads
  | .seqBlock _ statements => visitsAll statements
  | .parBlock _ statements => visitsAll statements
  | .ifStatement condition thenBody elseBody => condition.loads ++ thenBody.visits ++ elseBody.visits
  | .caseStatement expression items => expression.loads ++ visitsItems items
  | .forLoop _ initLhs initRhs condition updateLhs updateRhs body =>
      initLhs.drivers ++ initRhs.loads ++ condition.loads ++ updateLhs.drivers ++ updateRhs.loads ++ body.visits
  | .whileLoop condition body => condition.loads ++ body.visits
  | .foreverLoop body => body.visits
  | .repeatLoop count body => count.loads ++ body.visits
  | .systemTaskCall _ arguments => loadsAll arguments
  | .taskEnable _ arguments => loadsAll arguments
  | .waitStatement condition body => condition.loads ++ body.visits
  | .delayControl delay body => delay.loads ++ body.visits
  | .eventControl events body => loadsAll events ++ body.visits
  | .disableStatement => []
  | .eventTrigger _ => []

/-- `_analyze_case_item` -/
def CaseItem.visits : CaseItem → List Visit
  | .mk values body => loadsAll values ++ body.visits

def visitsAll : List Statement → List Visit
  | [] => []
  | s :: ss => s.visits ++ visitsAll ss

def visitsItems : List CaseItem → List Visit
  | [] => []
  | item :: items => item.visits ++ visitsItems items

end

/-- `_analyze_instance_connections`, for one connection. -/
def PortConnection.visits (d : Design) (inst : Instance) (conn : PortConnection) (i : Nat) : List Visit :=
  match conn.expression with
  | none => []
  | some e =>
      match (resolvedPort d inst conn i).map Port.direction with
      | some .output => e.drivers
      | some .input => e.loads
      | some .inout => e.drivers ++ e.loads
      | none => e.loads

/-- What the analysis finds in a source. -/
def Source.visits (d : Design) : Source → List Visit
  | .continuousAssign lhs rhs => lhs.drivers ++ rhs.loads
  | .alwaysBlock sensitivityList body => loadsAll sensitivityList ++ body.visits
  | .initialBlock body => body.visits
  | .instantiation inst => inst.portConnections.zipIdx.flatMap fun conn => conn.1.visits d inst conn.2

/-- The lists of drivers and loads. -/
structure Connectivity where
  drivers : Signal → List SourceId
  loads : Signal → List SourceId

/-- A source goes on a list once. -/
def addOnce (source : SourceId) (sources : List SourceId) : List SourceId :=
  if source ∈ sources then sources else sources ++ [source]

/-- A name that was found goes on a list of its signal. -/
def Connectivity.add (m : Module) (source : SourceId) (c : Connectivity) : Visit → Connectivity
  | .driver name =>
      if m.signalForName name then
        { c with drivers := Function.update c.drivers (source.1, name) (addOnce source (c.drivers (source.1, name))) }
      else c
  | .load name =>
      if m.signalForName name then
        { c with loads := Function.update c.loads (source.1, name) (addOnce source (c.loads (source.1, name))) }
      else c

/-- `_clear_connectivity` -/
def Connectivity.clear (mi : Nat) (c : Connectivity) : Connectivity where
  drivers s := if s.1 = mi then [] else c.drivers s
  loads s := if s.1 = mi then [] else c.loads s

/-- The sources of a module that the analysis goes through, in its order. -/
def Module.analyzed (m : Module) : List Source :=
  m.continuousAssigns.map (fun ca => .continuousAssign ca.1 ca.2) ++
    m.alwaysBlocks.map (fun block => .alwaysBlock block.1 block.2) ++
    m.initialBlocks.map .initialBlock ++ m.instances.map .instantiation

/-- `analyze_connectivity`, for one module. -/
def analyzeModule (d : Design) (c : Connectivity) (m : Module × Nat) : Connectivity :=
  m.1.analyzed.zipIdx.foldl
    (fun c source => (source.1.visits d).foldl (Connectivity.add m.1 (m.2, source.2)) c) (c.clear m.2)

/-- `analyze_connectivity` -/
def analyzeConnectivity (d : Design) (c : Connectivity) : Connectivity := d.zipIdx.foldl (analyzeModule d) c

/-! ## What is written and read -/

/-- What an execution does to the signals that a scope can name, and the routines that it calls. -/
inductive Effect
  | write (path : Path)
  | read (path : Path)
  | call (routine : String)
  deriving DecidableEq

/-- A plain name of the scope itself. -/
def Hidden (scope : List String) (path : Path) : Prop := path.1 = [] ∧ path.2 ∈ scope

instance (scope : List String) (path : Path) : Decidable (Hidden scope path) := inferInstanceAs (Decidable (_ ∧ _))

mutual

/-- The evaluation of an expression. -/
def Expr.effects (scope : List String) : Expr → List Effect
  | .identifier hierarchy name => if Hidden scope (hierarchy, name) then [] else [.read (hierarchy, name)]
  | .bitSelect target index => target.effects scope ++ index.effects scope
  | .rangeSelect target msb lsb => target.effects scope ++ msb.effects scope ++ lsb.effects scope
  | .partSelect target base width => target.effects scope ++ base.effects scope ++ width.effects scope
  | .concatenation parts => effectsAll scope parts
  | .streamingConcatenation parts sliceSize => effectsAll scope parts ++ sliceSize.effects scope
  | .functionCall name isSystem arguments =>
      effectsAll scope arguments ++ if isSystem then [] else [.call name]
  | .node operands => effectsAll scope operands

def effectsAll (scope : List String) : List Expr → List Effect
  | [] => []
  | e :: es => e.effects scope ++ effectsAll scope es

end

mutual

/-- An assignment to a target: it is written, and its indices are evaluated. What is no target is left alone. -/
def Expr.assignEffects (scope : List String) : Expr → List Effect
  | .identifier hierarchy name => if Hidden scope (hierarchy, name) then [] else [.write (hierarchy, name)]
  | .bitSelect target index => target.assignEffects scope ++ index.effects scope
  | .rangeSelect target msb lsb => target.assignEffects scope ++ msb.effects scope ++ lsb.effects scope
  | .partSelect target base width => target.assignEffects scope ++ base.effects scope ++ width.effects scope
  | .concatenation parts => assignEffectsAll scope parts
  | .streamingConcatenation parts sliceSize => assignEffectsAll scope parts ++ sliceSize.effects scope
  | _ => []

def assignEffectsAll (scope : List String) : List Expr → List Effect
  | [] => []
  | e :: es => e.assignEffects scope ++ assignEffectsAll scope es

end

/-- An expression that is connected to a port, or passed to one. -/
def Expr.portEffects (scope : List String) (e : Expr) : PortDirection → List Effect
  | .input => e.effects scope
  | .output => e.assignEffects scope
  | .inout => e.assignEffects scope ++ e.effects scope

/-- The arguments of a task; those past its ports are not evaluated. -/
def argumentEffects (scope : List String) : List Port → List Expr → List Effect
  | p :: ports, e :: es => e.portEffects scope p.direction ++ argumentEffects scope ports es
  | _, _ => []

/-- The system tasks that write their second argument. -/
def writesMemory (taskName : String) : Bool :=
  taskName.toLower == "$readmemh" || taskName.toLower == "$readmemb"

/-- The arguments of a system task. -/
def systemTaskEffects (scope : List String) (taskName : String) : List Expr → List Effect
  | file :: memory :: addresses =>
      file.effects scope ++ (if writesMemory taskName then memory.assignEffects scope else memory.effects scope) ++
        effectsAll scope addresses
  | es => effectsAll scope es

/-- The initial values of the variables of a block, each in the scope of those before it and of itself. -/
def localEffects : List String → List (String × Expr) → List Effect
  | _, [] => []
  | scope, x :: xs => x.2.effects (x.1 :: scope) ++ localEffects (x.1 :: scope) xs

/-- The scope inside a block. -/
def blockScope (scope : List String) (localVars : List (String × Expr)) : List String :=
  (localVars.map Prod.fst).reverse ++ scope

/-- The scope inside a loop that declares its variable. -/
def loopScope (scope : List String) (declaresVar : Bool) : Expr → List String
  | .identifier _ name => if declaresVar then name :: scope else scope
  | _ => scope

section

variable (tasks : List Routine)

mutual

/-- The execution of a statement. -/
def Statement.effects (scope : List String) : Statement → List Effect
  | .null => []
  | .blockingAssign lhs rhs => lhs.assignEffects scope ++ rhs.effects scope
  | .nonblockingAssign lhs rhs => lhs.assignEffects scope ++ rhs.effects scope
  | .seqBlock localVars statements =>
      localEffects scope localVars ++ statementEffects (blockScope scope localVars) statements
  | .parBlock localVars statements =>
      localEffects scope localVars ++ statementEffects (blockScope scope localVars) statements
  | .ifStatement condition thenBody elseBody =>
      condition.effects scope ++ thenBody.effects scope ++ elseBody.effects scope
  | .caseStatement expression items => expression.effects scope ++ itemEffects scope items
  | .forLoop declaresVar initLhs initRhs condition updateLhs updateRhs body =>
      let inner := loopScope scope declaresVar initLhs
      initLhs.assignEffects inner ++ initRhs.effects inner ++ condition.effects inner ++
        updateLhs.assignEffects inner ++ updateRhs.effects inner ++ body.effects inner
  | .whileLoop condition body => condition.effects scope ++ body.effects scope
  | .foreverLoop body => body.effects scope
  | .repeatLoop count body => count.effects scope ++ body.effects scope
  | .systemTaskCall taskName arguments => systemTaskEffects scope taskName arguments
  | .taskEnable taskName arguments =>
      -- a task that is not known is skipped
      match tasks.find? fun t => t.name == taskName with
      | some task => argumentEffects scope task.ports arguments ++ [.call taskName]
      | none => []
  | .waitStatement condition body => condition.effects scope ++ body.effects scope
  | .delayControl delay body => delay.effects scope ++ body.effects scope
  | .eventControl events body => effectsAll scope events ++ body.effects scope
  | .disableStatement => []
  | .eventTrigger event => if event ∈ scope then [] else [.read ([], event), .write ([], event)]

def CaseItem.effects (scope : List String) : CaseItem → List Effect
  | .mk values body => effectsAll scope values ++ body.effects scope

def statementEffects (scope : List String) : List Statement → List Effect
  | [] => []
  | s :: ss => s.effects scope ++ statementEffects scope ss

def itemEffects (scope : List String) : List CaseItem → List Effect
  | [] => []
  | item :: items => item.effects scope ++ itemEffects scope items

end

end

/-- A port connection. Through a port that is not known anything may flow. -/
def PortConnection.effects (d : Design) (scope : List String) (inst : Instance) (conn : PortConnection) (i : Nat) :
    List Effect :=
  match conn.expression with
  | none => []
  | some e => e.portEffects scope (((resolvedPort d inst conn i).map Port.direction).getD .inout)

/-- A source of a module. -/
def Source.effects (d : Design) (tasks : List Routine) (scope : List String) : Source → List Effect
  | .continuousAssign lhs rhs => lhs.assignEffects scope ++ rhs.effects scope
  | .alwaysBlock sensitivityList body => effectsAll scope sensitivityList ++ body.effects tasks scope
  | .initialBlock body => body.effects tasks scope
  | .instantiation inst => inst.portConnections.zipIdx.flatMap fun conn => conn.1.effects d scope inst conn.2

/-- The body of a routine as a block; its ports and its result are variables of its own. -/
def Routine.scope (r : Routine) : List String := r.name :: r.ports.map Port.name

def Routine.block (r : Routine) : Statement := .seqBlock r.locals [r.body]

/-- The routines of a module. -/
def Module.routines (m : Module) : List Routine := m.tasks ++ m.functions

/-- The routines that are executed, through any number of calls. -/
inductive Reached (m : Module) (effects : List Effect) : Routine → Prop
  | called {r : Routine} : r ∈ m.routines → .call r.name ∈ effects → Reached m effects r
  | further {r r' : Routine} : Reached m effects r → r' ∈ m.routines →
      .call r'.name ∈ r.block.effects m.tasks r.scope → Reached m effects r'

/-- All sources of a module with the names that hide its own: those that are analyzed first. -/
def Module.sources (m : Module) : List (List String × Source) := m.analyzed.map (fun s => ([], s)) ++ m.generated

/-- What a source does, itself or in a routine. -/
inductive Source.Does (d : Design) (m : Module) (scope : List String) (s : Source) : Effect → Prop
  | itself {e : Effect} : e ∈ s.effects d m.tasks scope → Source.Does d m scope s e
  | called {e : Effect} {r : Routine} : Reached m (s.effects d m.tasks scope) r →
      e ∈ r.block.effects m.tasks r.scope → Source.Does d m scope s e

section

variable (reach : Nat → List String → String → Option Signal)

/-- The signal that a path means in a module. A path through other scopes is followed by `reach`. -/
def locate (mi : Nat) (m : Module) (path : Path) : Option Signal :=
  if path.1 = [] then if m.signalForName path.2 then some (mi, path.2) else none
  else reach mi path.1 path.2

/-- The source can write some bit of the signal. -/
def Writes (d : Design) (source : SourceId) (signal : Signal) : Prop :=
  ∃ m, d[source.1]? = some m ∧ ∃ s, m.sources[source.2]? = some s ∧
    ∃ path, s.2.Does d m s.1 (.write path) ∧ locate reach source.1 m path = some signal

/-- The evaluation of the source reads the signal. -/
def Reads (d : Design) (source : SourceId) (signal : Signal) : Prop :=
  ∃ m, d[source.1]? = some m ∧ ∃ s, m.sources[source.2]? = some s ∧
    ∃ path, s.2.Does d m s.1 (.read path) ∧ locate reach source.1 m path = some signal

/-- The signals of a design. -/
def IsSignal (d : Design) (signal : Signal) : Prop := ∃ m, d[signal.1]? = some m ∧ m.signalForName signal.2 = true

/-- The lists hold exactly what drives and what reads each signal. -/
def Connected (d : Design) (c : Connectivity) : Prop :=
  ∀ signal, IsSignal d signal → ∀ source, (source ∈ c.drivers signal ↔ Writes reach d source signal) ∧
      (source ∈ c.loads signal ↔ Reads reach d source signal)

end

end Veriforge.Analysis

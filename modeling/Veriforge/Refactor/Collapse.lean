import Veriforge.Dict
import Veriforge.Graph.UnionFind
import Veriforge.Refactor.Modules
import Veriforge.Refactor.PushDown

/-! # Collapsing a wrapper

`refactor/hierarchy_collapse.py` with the classification of wrappers in `refactor/hierarchy_graph.py`: the instance of
a module that only passes ports through is replaced by the instance inside it. The assigns of the wrapper are read as
aliases, whichever way they point. -/

namespace Veriforge.Refactor

open Graph

variable {Expr Item : Type}

/-- What is read of expressions and of continuous assignments. -/
structure Syntax (Expr Item : Type) where
  /-- `_simple_identifier_name` -/
  simpleIdentifierName : Expr → Option String
  lhs : Item → Expr
  rhs : Item → Expr

/-! ## Classification -/

/-- `WrapperInfo.wrapper_class` -/
inductive WrapperClass
  | unknownOrUnsupported | behavioralWrapper | notWrapper | purePassThrough | structuralWrapper
  deriving DecidableEq

def WrapperClass.text : WrapperClass → String
  | .unknownOrUnsupported => "unknown_or_unsupported"
  | .behavioralWrapper => "behavioral_wrapper"
  | .notWrapper => "not_wrapper"
  | .purePassThrough => "pure_pass_through"
  | .structuralWrapper => "structural_wrapper"

/-- `WrapperInfo` -/
structure WrapperInfo where
  wrapperClass : WrapperClass
  confidence : String
  diagnostics : List RefactorDiagnostic
  refactorActions : List String
  deriving DecidableEq

/-- `Design.get_module` -/
def getModule (design : List (Module Expr Item)) (name : String) : Option (Module Expr Item) :=
  design.find? (·.name == name)

/-- `resolved_module` after `link_instances`, where the last module of a name counts. -/
def resolvedModule (design : List (Module Expr Item)) (inst : Instance Expr) : Option (Module Expr Item) :=
  design.reverse.find? (·.name == inst.moduleName)

/-- `_unsupported_diagnostics` -/
def unsupportedDiagnostics (m : Module Expr Item) : List RefactorDiagnostic :=
  (if m.body.generateBlocks.isEmpty then []
    else [⟨"generate-blocks", "Generate blocks are not supported by initial wrapper classification.", "warning"⟩]) ++
  (if m.body.specifyBlocks.isEmpty then []
    else [⟨"specify-blocks", "Specify blocks are not supported by hierarchy collapse.", "warning"⟩]) ++
  (if m.body.defparams.isEmpty then []
    else [⟨"defparams", "Defparams are not supported by hierarchy collapse.", "warning"⟩]) ++
  (if m.body.interfaceInstances.isEmpty then []
    else [⟨"interface-instances", "Interface instances are not supported by initial wrapper classification.", "warning"⟩])

/-- `_has_behavior` -/
def hasBehavior (m : Module Expr Item) : Bool :=
  !(m.body.alwaysBlocks.isEmpty && m.body.initialBlocks.isEmpty && m.body.functions.isEmpty && m.body.tasks.isEmpty)

section Aliases

variable (S : Syntax Expr Item)

/-- The names that an assign makes aliases, if it is of the form `assign l = r`. -/
def aliasPair (assign : Item) : Option (String × String) :=
  (S.simpleIdentifierName (S.lhs assign)).bind fun lhs =>
    (S.simpleIdentifierName (S.rhs assign)).map fun rhs => (lhs, rhs)

/-- `_alias_groups` -/
def aliasGroups (m : Module Expr Item) : Option (UnionFind String) :=
  (m.body.continuousAssigns.mapM (aliasPair S)).map .ofPairs

/-- `_UnionFind.group_contains_any` -/
def groupContainsAny (aliases : UnionFind String) (name : String) (candidates : List String) : Bool :=
  candidates.any fun candidate => aliases.find candidate == aliases.find name

/-- `_is_pure_pass_through` -/
def isPurePassThrough (m : Module Expr Item) (child : Instance Expr) : Bool :=
  match aliasGroups S m with
  | none => false
  | some aliases =>
      let wrapperPorts := m.ports.map (·.name)
      !wrapperPorts.isEmpty &&
      (m.body.continuousAssigns.all fun assign =>
        (aliasPair S assign).any fun p => groupContainsAny aliases p.1 wrapperPorts) &&
      !child.portConnections.isEmpty &&
      child.portConnections.all fun conn =>
        (conn.expression.bind S.simpleIdentifierName).any fun signal => groupContainsAny aliases signal wrapperPorts

/-- `classify_wrapper_module` -/
def classifyWrapperModule (design : List (Module Expr Item)) (m : Option (Module Expr Item)) : WrapperInfo :=
  match m with
  | none =>
      ⟨.unknownOrUnsupported, "blocked", [⟨"unresolved-module", "Instance target could not be resolved.", "error"⟩], []⟩
  | some m =>
      if unsupportedDiagnostics m ≠ [] then ⟨.unknownOrUnsupported, "blocked", unsupportedDiagnostics m, []⟩
      else if hasBehavior m then
        ⟨.behavioralWrapper, "unsafe", [⟨"behavioral-wrapper",
            "Module contains behavioral code and is not safe to collapse in the initial implementation.", "warning"⟩],
          ["visualize"]⟩
      else
        let unresolved := (m.body.instances.filter fun inst => (resolvedModule design inst).isNone).map (·.moduleName)
        match m.body.instances with
        | [] => ⟨.notWrapper, "none", [], []⟩
        | child :: rest =>
            if unresolved ≠ [] then
              ⟨.unknownOrUnsupported, "blocked",
                [⟨"unresolved-child", "Wrapper contains unresolved child instance module(s): " ++
                  ", ".intercalate (unresolved.dedup.mergeSort fun a b => decide (a ≤ b)) ++ ".", "error"⟩], []⟩
            else if rest.isEmpty && isPurePassThrough S m child then
              ⟨.purePassThrough, "safe", [], ["previewCollapse", "visualize"]⟩
            else
              ⟨.structuralWrapper, "preview",
                [⟨"structural-wrapper", "Module is structural but not a single pure pass-through wrapper.", "info"⟩],
                ["visualize"]⟩

end Aliases

/-! ## The rewritten parent -/

/-- The parts of the path after the current module. An instance whose name is the last part ends the search, wherever
it stands. -/
def resolveInstancePathFrom (design : List (Module Expr Item)) (last : String) :
    Module Expr Item → List String → Option (Module Expr Item × Nat)
  | _, [] => none
  | current, instName :: parts =>
      let k := current.body.instances.findIdx (·.instanceName == instName)
      match current.body.instances[k]? with
      | none => none
      | some inst =>
          if instName = last then some (current, k)
          else (resolvedModule design inst).bind fun m => resolveInstancePathFrom design last m parts

/-- `_resolve_instance_path`: the parent, and the number of the instance in it. -/
def resolveInstancePath (design : List (Module Expr Item)) (instancePath : List Char) :
    Option (Module Expr Item × Nat) :=
  match ((instancePath.splitOn '/').filter (!·.isEmpty)).map String.ofList with
  | [] => none
  | [_] => none
  | top :: part :: parts =>
      (getModule design top).bind fun m =>
        resolveInstancePathFrom design ((part :: parts).getLast (List.cons_ne_nil part parts)) m (part :: parts)

/-- `_blocked` -/
def blocked (code message : String) : RefactorDiagnostic := ⟨code, message, "error"⟩

/-- `port_name` of a connection of the wrapper instance. -/
def formalName (wrapper : Module Expr Item) (conn : PortConnection Expr) (index : Nat) : Option String :=
  if conn.isNamed then conn.portName else (wrapper.ports[index]?).map (·.name)

/-- The name of the port and what it is connected to. -/
def portEntry (wrapper : Module Expr Item) (conn : PortConnection Expr) (index : Nat) :
    Except RefactorDiagnostic (String × Expr) :=
  if conn.isNamed = false ∧ wrapper.ports.length ≤ index then
    .error (blocked "port-connection-out-of-range"
      ("Ordered port connection " ++ toString index ++ " has no matching wrapper port."))
  else
    match formalName wrapper conn index, conn.expression with
    | some portName, some e => .ok (portName, e)
    | _, _ => .error (blocked "unsupported-port-connection"
        "Unconnected wrapper ports are not supported by collapse preview.")

/-- The entries in the order in which they are set. -/
def portEntries (wrapper : Module Expr Item) : List (PortConnection Expr) → Nat →
    Except RefactorDiagnostic (List (String × Expr))
  | [], _ => .ok []
  | conn :: conns, index => do
      let entry ← portEntry wrapper conn index
      let entries ← portEntries wrapper conns (index + 1)
      .ok (entry :: entries)

/-- `port_map` -/
def portMap (entries : List (String × Expr)) : List (String × Expr) :=
  entries.foldl (fun d e => dictSet e.1 e.2 d) []

/-- `_module_signal_names` -/
def Module.signalNames (m : Module Expr Item) : List String :=
  m.ports.map (·.name) ++ m.body.nets.map Prod.fst ++ m.body.vars.map Prod.fst

/-- `_mapped_parent_expression` -/
def mappedParentExpression (name : String) (ports : List (String × Expr)) (aliases : UnionFind String) : Option Expr :=
  (ports.find? fun p => aliases.find name == aliases.find p.1).map Prod.snd

/-- `signal_map` -/
def signalMap (wrapper : Module Expr Item) (ports : List (String × Expr)) (aliases : UnionFind String)
    (name : String) : Option Expr :=
  (if name ∈ wrapper.signalNames then mappedParentExpression name ports aliases else none).or (dictGet name ports)

section Rewrite

variable (S : Syntax Expr Item)

/-- `_compose_parent_connections` -/
def composeParentConnections (wrapperInst : Instance Expr) (wrapper : Module Expr Item) :
    Except RefactorDiagnostic (String → Option Expr) := do
  let entries ← portEntries wrapper wrapperInst.portConnections 0
  match aliasGroups S wrapper with
  | none =>
      .error (blocked "unsupported-alias-expression"
        "Only direct identifier pass-through assigns are supported by collapse preview.")
  | some aliases => .ok (signalMap wrapper (portMap entries) aliases)

/-- `_remap_connection` -/
def remapConnection (signalMap : String → Option Expr) (conn : PortConnection Expr) : PortConnection Expr :=
  { conn with
    expression := conn.expression.map fun e =>
      ((S.simpleIdentifierName e).bind signalMap).getD e }

/-- The instance that a child of the wrapper becomes in the parent. -/
def liftedChild (wrapperInst : Instance Expr) (signalMap : String → Option Expr) (child : Instance Expr) :
    Instance Expr :=
  { child with
    instanceName := wrapperInst.instanceName ++ "__" ++ child.instanceName
    portConnections := child.portConnections.map (remapConnection S signalMap) }

/-- `_build_transformed_parent`, where the wrapper instance is instance `k` of the parent. -/
def buildTransformedParent (parent : Module Expr Item) (k : Nat) (wrapperInst : Instance Expr)
    (wrapper : Module Expr Item) (signalMap : String → Option Expr) : Module Expr Item :=
  { parent with
    body := { parent.body with
      instances := parent.body.instances.zipIdx.flatMap fun inst =>
        if inst.2 = k then wrapper.body.instances.map (liftedChild S wrapperInst signalMap) else [inst.1] } }

/-- `preview_collapse_hierarchy`: the diagnostics that block it, or the rewritten parent of the edit that is safe. -/
def previewCollapseHierarchy (design : List (Module Expr Item)) (instancePath : List Char) :
    Except (List RefactorDiagnostic) (Module Expr Item) :=
  match resolveInstancePath design instancePath with
  | none => .error [blocked "instance-not-found" ("Instance path not found: " ++ String.ofList instancePath)]
  | some (parent, k) =>
      match parent.body.instances[k]? with
      | none => .error []
      | some wrapperInst =>
          let wrapper := resolvedModule design wrapperInst
          let classification := classifyWrapperModule S design wrapper
          if classification.wrapperClass ≠ .purePassThrough then
            .error (⟨"unsupported-wrapper-class",
              "Only pure_pass_through wrappers can be collapsed in preview mode; got " ++
                classification.wrapperClass.text ++ ".", "error"⟩ :: classification.diagnostics)
          else
            match wrapper with
            | none => .error [blocked "unresolved-module" "Wrapper instance target is unresolved."]
            | some wrapper =>
                if wrapperInst.parameterBindings ≠ [] ∨ wrapper.parameters ≠ [] then
                  .error [blocked "parameterized-wrapper"
                    "Parameterized wrapper collapse is not supported by the first preview implementation."]
                else
                  match composeParentConnections S wrapperInst wrapper with
                  | .error diagnostic => .error [diagnostic]
                  | .ok signalMap => .ok (buildTransformedParent S parent k wrapperInst wrapper signalMap)

end Rewrite

end Veriforge.Refactor

import Mathlib.Data.List.Nodup
import Veriforge.Refactor.Modules
import Veriforge.Refactor.TextEdit

/-! # Pushing a module down

`refactor/_push_down_engine.py`: the body of a module moves to a new child, and the module becomes a wrapper that
passes its parameters and ports through. The wrapper keeps the header, so it means what the module meant exactly if
nothing in the header belongs to the body that has moved. -/

namespace Veriforge.Refactor

variable {Expr Item Wave : Type}

/-! ## The edit -/

/-- `_IDENTIFIER_RE`, whose `$` also matches before a newline at the end. -/
def isValidIdentifier (name : String) : Bool :=
  match name.toList with
  | [] => false
  | c :: cs =>
      (c.isAlpha || c == '_') &&
        (if cs.getLast? = some '\n' then cs.dropLast else cs).all fun c => c.isAlphanum || c == '_' || c == '$'

/-- `_module_declared_names` -/
def Module.declaredNames (m : Module Expr Item) : List String :=
  m.parameters.map (·.name) ++ m.ports.map (·.name) ++ m.body.nets.map Prod.fst ++ m.body.vars.map Prod.fst ++
    m.body.instances.map (·.instanceName) ++ m.body.functions.map Prod.fst ++ m.body.tasks.map Prod.fst ++
    m.body.generateBlocks.flatMap Prod.fst

/-- `_unsupported_push_down_features` -/
def unsupportedPushDownFeatures (m : Module Expr Item) : Option RefactorDiagnostic :=
  let unsupported :=
    (if m.body.interfaceInstances.isEmpty then [] else ["interface instances"]) ++
    (if m.body.generateBlocks.isEmpty then [] else ["generate blocks"]) ++
    (if m.body.specifyBlocks.isEmpty then [] else ["specify blocks"]) ++
    (if m.body.defparams.isEmpty then [] else ["defparams"]) ++
    (if m.body.typedefs.isEmpty then [] else ["typedefs"]) ++
    (if m.body.functions.isEmpty then [] else ["functions"]) ++
    (if m.body.tasks.isEmpty then [] else ["tasks"])
  if unsupported.isEmpty then none
  else
    some ⟨"unsupported-push-down-body",
      "Push-down rewrite does not yet support modules containing " ++ ", ".intercalate unsupported ++ ".", "warning"⟩

/-- `_module_body_is_empty` -/
def Module.bodyIsEmpty (m : Module Expr Item) : Bool :=
  m.body.nets.isEmpty && m.body.vars.isEmpty && m.body.instances.isEmpty && m.body.continuousAssigns.isEmpty &&
    m.body.alwaysBlocks.isEmpty && m.body.initialBlocks.isEmpty && !m.parameters.any (·.isLocal)

/-- `_build_pass_through_instance` -/
def buildPassThroughInstance (identifier : String → Expr) (m : Module Expr Item) (newModuleName instanceName : String) :
    Instance Expr :=
  let bindings : List (ParameterBinding Expr) :=
    (m.parameters.filter (!·.isLocal)).map fun p => ⟨some p.name, some (identifier p.name)⟩
  { moduleName := newModuleName
    instanceName := instanceName
    instanceArray := none
    hasParameterOverride := !bindings.isEmpty
    parameterBindings := bindings
    portConnections := m.ports.map fun p => ⟨some p.name, some (identifier p.name), true⟩ }

/-- `wrapper_module` -/
def wrapperModule (identifier : String → Expr) (m : Module Expr Item) (newModuleName instanceName : String) :
    Module Expr Item :=
  { m with
    parameters := m.parameters.filter (!·.isLocal)
    body := .ofInstances [buildPassThroughInstance identifier m newModuleName instanceName] }

/-- The diagnostic of a check that fails. -/
def refuse (failed : Bool) (code message : String) : Option RefactorDiagnostic :=
  if failed then some ⟨code, message, "error"⟩ else none

/-- The checks of `_build_push_down_edit` in their order. -/
def pushDownChecks (quoted : String → String) (design : List (Module Expr Item)) (name : String)
    (m : Module Expr Item) (instanceName file : String) (originalText : Line) : List (Option RefactorDiagnostic) :=
  [refuse (name == "") "new-module-name-required" "Push-down rewrite requires a new child module name.",
    refuse (!isValidIdentifier name) "new-module-name-invalid"
      ("New module name " ++ quoted name ++ " is not a valid Verilog identifier."),
    refuse (!isValidIdentifier instanceName) "new-instance-name-invalid"
      ("New instance name " ++ quoted instanceName ++ " is not a valid Verilog identifier."),
    refuse (design.any (·.name == name)) "new-module-name-collision"
      ("Push-down rewrite cannot create module " ++ quoted name ++ ": a module with that name already exists."),
    refuse (name == m.name) "new-module-name-collision"
      ("New child module name " ++ quoted name ++ " must differ from the selected module name."),
    refuse (m.declaredNames.contains instanceName) "new-instance-name-collision"
      ("New instance name " ++ quoted instanceName ++ " collides with an existing name inside " ++ quoted m.name ++ "."),
    unsupportedPushDownFeatures m,
    refuse m.bodyIsEmpty "empty-module-body"
      ("Push-down rewrite cannot wrap module " ++ quoted m.name ++ " because its body is empty."),
    refuse (file == "") "module-location-required"
      ("Cannot rewrite push-down because module " ++ quoted m.name ++ " has no source location."),
    refuse originalText.isEmpty "module-source-unavailable"
      ("Cannot read source for module " ++ quoted m.name ++ " at " ++ file ++ ".")]

/-- `_build_push_down_edit`: the two modules whose texts replace the text of the module. `quoted` is `repr`, `file`
is the file of the location, `""` where there is none, and `originalText` what is read there. -/
def buildPushDownEdit (identifier : String → Expr) (quoted : String → String) (design : List (Module Expr Item))
    (newModuleName : Option String) (m : Module Expr Item) (instanceName file : String) (originalText : Line) :
    Except RefactorDiagnostic (Module Expr Item × Module Expr Item) :=
  let name := newModuleName.getD ""
  match (pushDownChecks quoted design name m instanceName file originalText).findSome? id with
  | some diagnostic => .error diagnostic
  | none => .ok (wrapperModule identifier m name instanceName, { m with name })

theorem buildPushDownEdit_ok {identifier : String → Expr} {quoted : String → String} {design : List (Module Expr Item)}
    {newModuleName : Option String} {m wrapper child : Module Expr Item} {instanceName file : String}
    {originalText : Line}
    (h : buildPushDownEdit identifier quoted design newModuleName m instanceName file originalText =
      .ok (wrapper, child)) :
    ∃ name, wrapper = wrapperModule identifier m name instanceName ∧ child = { m with name } := by
  refine ⟨newModuleName.getD "", ?_⟩
  unfold buildPushDownEdit at h
  dsimp only at h
  split at h
  · cases h
  · cases h
    exact ⟨rfl, rfl⟩

/-! ## Constants -/

section Constants

variable {X : ConstExprs Expr} {env env' : ConstEnv}

theorem truncate_truncate (signed : Bool) (bits : Nat) (v : Int) :
    truncate signed bits (truncate signed bits v) = truncate signed bits v := by
  unfold truncate
  split
  · exact Int.bmod_bmod
  · exact Int.emod_emod _ _

theorem Range.eval_congr {r : Range Expr} (h : ∀ n ∈ r.names X, env n = env' n) : r.eval X env = r.eval X env' := by
  rw [Range.eval, Range.eval, X.eval_congr r.msb env env' fun n hn => h n (List.mem_append_left _ hn),
    X.eval_congr r.lsb env env' fun n hn => h n (List.mem_append_right _ hn)]

theorem Parameter.convert_congr {p : Parameter Expr} (h : ∀ n ∈ p.names X, env n = env' n) (v : Int) :
    p.convert X env v = p.convert X env' v := by
  unfold Parameter.convert
  cases hwidth : p.width with
  | none => rfl
  | some r =>
    have hr : r.eval X env = r.eval X env' := Range.eval_congr fun n hn => h n (by
      rw [Parameter.names, hwidth]
      exact List.mem_append_left _ hn)
    simp only [hr]

theorem Parameter.given_congr {p : Parameter Expr} {overrides : ConstEnv} (h : ∀ n ∈ p.names X, env n = env' n) :
    p.given X overrides env = p.given X overrides env' := by
  have hdeclared : (p.defaultValue.bind fun e => X.eval e env) = p.defaultValue.bind fun e => X.eval e env' := by
    cases hdefault : p.defaultValue with
    | none => rfl
    | some e =>
      refine X.eval_congr e env env' fun n hn => h n ?_
      rw [Parameter.names, hdefault]
      exact List.mem_append_right _ hn
  rw [Parameter.given, Parameter.given, hdeclared]

/-- A value in the type of a parameter stays as it is. -/
theorem Parameter.convert_convert {p : Parameter Expr} {v u : Int} (h : p.convert X env v = some u) :
    p.convert X env u = some u := by
  unfold Parameter.convert at h ⊢
  cases hwidth : p.width with
  | some r =>
    rw [hwidth] at h
    obtain ⟨b, hb, rfl⟩ := Option.map_eq_some_iff.mp h
    simp only [hb, Option.map_some, truncate_truncate]
  | none =>
    rw [hwidth] at h
    simp only at h ⊢
    cases hatom : atomType p.signed p.paramType with
    | none => rfl
    | some t =>
      rw [hatom] at h
      rw [← Option.some.inj h]
      simp only [truncate_truncate]

theorem evalPart_congr {α β : Type} {f g : α → Option β} {a : Option α} (h : ∀ x ∈ a, f x = g x) :
    evalPart f a = evalPart g a := by
  cases a with
  | none => rfl
  | some x => rw [evalPart, evalPart, h x rfl]

theorem mapM_congr {α β : Type} {f g : α → Option β} {xs : List α} (h : ∀ x ∈ xs, f x = g x) :
    xs.mapM f = xs.mapM g := by
  induction xs with
  | nil => rfl
  | cons x xs ih =>
    rw [List.mapM_cons, List.mapM_cons, h x List.mem_cons_self, ih fun y hy => h y (List.mem_cons_of_mem _ hy)]

theorem mem_of_mapM {α β : Type} {f : α → Option β} {xs : List α} {ys : List β} (h : xs.mapM f = some ys) :
    (∀ x ∈ xs, ∃ y ∈ ys, f x = some y) ∧ ∀ y ∈ ys, ∃ x ∈ xs, f x = some y := by
  induction xs generalizing ys with
  | nil =>
    cases h
    exact ⟨fun x hx => absurd hx List.not_mem_nil, fun y hy => absurd hy List.not_mem_nil⟩
  | cons x xs ih =>
    rw [List.mapM_cons] at h
    obtain ⟨y, hy, h⟩ := Option.bind_eq_some_iff.mp h
    obtain ⟨ys', hys, h⟩ := Option.bind_eq_some_iff.mp h
    cases h
    obtain ⟨hto, hfrom⟩ := ih hys
    refine ⟨fun x' hx' => ?_, fun y' hy' => ?_⟩
    · rcases List.mem_cons.mp hx' with rfl | hx'
      · exact ⟨y, List.mem_cons_self, hy⟩
      · obtain ⟨y', hy', hf⟩ := hto x' hx'
        exact ⟨y', List.mem_cons_of_mem _ hy', hf⟩
    · rcases List.mem_cons.mp hy' with rfl | hy'
      · exact ⟨x, List.mem_cons_self, hy⟩
      · obtain ⟨x', hx', hf⟩ := hfrom y' hy'
        exact ⟨x', List.mem_cons_of_mem _ hx', hf⟩

theorem Port.shape_congr {p : Port Expr} (h : ∀ n ∈ p.names X, env n = env' n) : p.shape X env = p.shape X env' := by
  have hwidth : evalPart (fun r : Range Expr => r.eval X env) p.width = evalPart (fun r => r.eval X env') p.width := by
    refine evalPart_congr fun r hr => Range.eval_congr fun n hn => h n ?_
    rw [Port.names, Option.mem_def.mp hr]
    exact List.mem_append_left _ (List.mem_append_left _ hn)
  have hdimensions : (p.dimensions.mapM fun r : Range Expr => r.eval X env) =
      p.dimensions.mapM fun r => r.eval X env' := by
    refine mapM_congr fun r hr => Range.eval_congr fun n hn => h n ?_
    exact List.mem_append_left _ (List.mem_append_right _ (List.mem_flatMap.mpr ⟨r, hr, hn⟩))
  have hdefault : evalPart (fun e => X.eval e env) p.defaultValue = evalPart (fun e => X.eval e env') p.defaultValue := by
    refine evalPart_congr fun e he => X.eval_congr e env env' fun n hn => h n ?_
    rw [Port.names, Option.mem_def.mp he]
    exact List.mem_append_right _ hn
  rw [Port.shape, Port.shape, hwidth, hdimensions, hdefault]

/-- What the shape of a port keeps of it. -/
theorem Port.shape_eq {p : Port Expr} {s : PortShape} (h : p.shape X env = some s) :
    s.name = p.name ∧ s.direction = p.direction ∧ s.dataType = p.dataType ∧
      s.defaultValue.isSome = p.defaultValue.isSome := by
  obtain ⟨width, _, h⟩ := Option.bind_eq_some_iff.mp h
  obtain ⟨dimensions, _, h⟩ := Option.bind_eq_some_iff.mp h
  obtain ⟨defaultValue, hdefault, rfl⟩ := Option.map_eq_some_iff.mp h
  refine ⟨rfl, rfl, rfl, ?_⟩
  cases hp : p.defaultValue with
  | none =>
    rw [hp] at hdefault
    cases hdefault
    rfl
  | some e =>
    rw [hp] at hdefault
    obtain ⟨v, _, rfl⟩ := Option.map_eq_some_iff.mp hdefault
    rfl

end Constants

/-! ## What the wrapper means -/

/-- Nothing that the header mentions moves away with the body, and the child may drive each output. -/
structure PushDownSafe (X : ConstExprs Expr) (dialect : Dialect) (m : Module Expr Item) : Prop where
  header : ∀ n ∈ m.headerNames X, ∀ p ∈ m.parameters, p.isLocal = true → p.name ≠ n
  outputs : ∀ p ∈ m.ports, p.direction = .output → Drivable dialect p.dataType p.defaultValue.isSome

/-- Ports have different names, and a localparam has the name of nothing else. -/
structure DistinctNames (S : Semantics Expr Item Wave) (m : Module Expr Item) : Prop where
  ports : (m.ports.map (·.name)).Nodup
  localparams : ∀ p ∈ m.parameters, p.isLocal = true →
    S.imported m.imports p.name = none ∧ ∀ q ∈ m.parameters, q.isLocal = false → q.name ≠ p.name

section Wrapper

variable {S : Semantics Expr Item Wave} {dialect : Dialect} {m : Module Expr Item} {name instanceName : String}
  {overrides env env' : ConstEnv}

theorem mem_overridable {p : Parameter Expr} :
    p ∈ m.parameters.filter (!·.isLocal) ↔ p ∈ m.parameters ∧ p.isLocal = false := by
  rw [List.mem_filter, Bool.not_eq_true']

theorem headerNames_of_parameter {p : Parameter Expr} (hp : p ∈ m.parameters) (hlocal : p.isLocal = false) {n : String}
    (hn : n ∈ p.names S.exprs) : n ∈ m.headerNames S.exprs :=
  List.mem_append_left _ (List.mem_flatMap.mpr ⟨p, mem_overridable.mpr ⟨hp, hlocal⟩, hn⟩)

theorem headerNames_of_port {p : Port Expr} (hp : p ∈ m.ports) {n : String} (hn : n ∈ p.names S.exprs) :
    n ∈ m.headerNames S.exprs :=
  List.mem_append_right _ (List.mem_flatMap.mpr ⟨p, hp, hn⟩)

/-- What the header mentions is mentioned in the module. -/
theorem mem_names_of_headerNames {n : String} (hn : n ∈ m.headerNames S.exprs) :
    n ∈ m.parameters.flatMap (Parameter.names S.exprs) ++ m.ports.flatMap (Port.names S.exprs) := by
  rcases List.mem_append.mp hn with hn | hn
  · obtain ⟨p, hp, hn⟩ := List.mem_flatMap.mp hn
    exact List.mem_append_left _ (List.mem_flatMap.mpr ⟨p, (mem_overridable.mp hp).1, hn⟩)
  · exact List.mem_append_right _ hn

/-- The instance passes the values of the parameters on. -/
theorem override_passThrough {p : Parameter Expr} (hp : p ∈ m.parameters) (hlocal : p.isLocal = false) :
    (buildPassThroughInstance S.exprs.identifier m name instanceName).override S env p.name = env p.name := by
  have hmem : p ∈ m.parameters.filter (!·.isLocal) := mem_overridable.mpr ⟨hp, hlocal⟩
  generalize hps : m.parameters.filter (!·.isLocal) = ps at hmem
  have hne : (ps.map fun p : Parameter Expr => (⟨some p.name, some (S.exprs.identifier p.name)⟩ :
      ParameterBinding Expr)).isEmpty = false := by
    cases ps with
    | nil => exact absurd hmem List.not_mem_nil
    | cons q qs => rfl
  rw [Instance.override, buildPassThroughInstance]
  simp only [hps, hne, Bool.not_false, Bool.true_eq_false, if_false]
  clear hne hps
  induction ps with
  | nil => exact absurd hmem List.not_mem_nil
  | cons q qs ih =>
    rw [List.map_cons, List.find?_cons]
    by_cases hq : q.name = p.name
    · simp only [hq, BEq.rfl]
      exact S.exprs.eval_identifier _ _
    · have hne : ((some q.name : Option String) == some p.name) = false :=
        beq_eq_false_iff_ne.mpr fun h => hq (Option.some.inj h)
      simp only [hne]
      refine ih ((List.mem_cons.mp hmem).resolve_left fun h => hq ?_)
      rw [h]

/-- A port is found among the shapes by its name. -/
theorem find_shape {ports : List (Port Expr)} {shapes : List PortShape}
    (h : ports.mapM (Port.shape S.exprs · env) = some shapes) {p : Port Expr} (hp : p ∈ ports) :
    ∃ q, shapes.find? (·.name == p.name) = some q ∧ ∃ p' ∈ ports, p'.name = p.name ∧ p'.shape S.exprs env = some q := by
  obtain ⟨s, hs, hshape⟩ := (mem_of_mapM h).1 p hp
  have hsome : (shapes.find? (·.name == p.name)).isSome := by
    rw [List.find?_isSome]
    exact ⟨s, hs, beq_iff_eq.mpr (Port.shape_eq hshape).1⟩
  obtain ⟨q, hq⟩ := Option.isSome_iff_exists.mp hsome
  obtain ⟨p', hp', hshape'⟩ := (mem_of_mapM h).2 q (List.mem_of_find?_eq_some hq)
  refine ⟨q, hq, p', hp', ?_, hshape'⟩
  have hname := List.find?_some hq
  rw [← (Port.shape_eq hshape').1]
  exact beq_iff_eq.mp hname

theorem shapes_congr (h : ∀ n ∈ m.headerNames S.exprs, env n = env' n) :
    m.ports.mapM (Port.shape S.exprs · env) = m.ports.mapM (Port.shape S.exprs · env') :=
  mapM_congr fun _ hp => Port.shape_congr fun n hn => h n (headerNames_of_port hp hn)

/-- The constants of the module, without its localparams. -/
def wrapperEnv (S : Semantics Expr Item Wave) (m : Module Expr Item) (env : ConstEnv) : ConstEnv := fun n =>
  if n ∈ (m.parameters.filter (!·.isLocal)).map (·.name) then env n else S.imported m.imports n

theorem wrapperEnv_overridable {p : Parameter Expr} (hp : p ∈ m.parameters) (hlocal : p.isLocal = false) :
    wrapperEnv S m env p.name = env p.name :=
  if_pos (List.mem_map_of_mem (mem_overridable.mpr ⟨hp, hlocal⟩))

/-- The header does not see the difference. -/
theorem wrapperEnv_header (hsafe : PushDownSafe S.exprs dialect m) (h : Elaborated S m overrides env) {n : String}
    (hn : n ∈ m.headerNames S.exprs) : wrapperEnv S m env n = env n := by
  unfold wrapperEnv
  split
  case isTrue _ => rfl
  case isFalse hnot =>
    refine (h.other n fun p hp hname => ?_).symm
    cases hlocal : p.isLocal with
    | true => exact hsafe.header n hn p hp hlocal hname
    | false => exact hnot (List.mem_map.mpr ⟨p, mem_overridable.mpr ⟨hp, hlocal⟩, hname⟩)

theorem elaborated_wrapper (hsafe : PushDownSafe S.exprs dialect m) (h : Elaborated S m overrides env) :
    Elaborated S (wrapperModule S.exprs.identifier m name instanceName) overrides (wrapperEnv S m env) := by
  constructor
  case value =>
    intro p hp
    obtain ⟨hp, hlocal⟩ := mem_overridable.mp hp
    have hnames : ∀ n ∈ p.names S.exprs, wrapperEnv S m env n = env n := fun n hn =>
      wrapperEnv_header hsafe h (headerNames_of_parameter hp hlocal hn)
    obtain ⟨v, hv, henv⟩ := h.value p hp
    refine ⟨v, ?_, (wrapperEnv_overridable hp hlocal).trans henv⟩
    rw [Parameter.given_congr hnames, funext fun u => Parameter.convert_congr hnames u]
    exact hv
  case other =>
    intro n hn
    refine if_neg fun hmem => ?_
    obtain ⟨p, hp, hname⟩ := List.mem_map.mp hmem
    exact hn p hp hname
  case resolved =>
    intro n hn
    have hheader : n ∈ m.headerNames S.exprs := hn
    rw [wrapperEnv_header hsafe h hheader]
    exact h.resolved n (mem_names_of_headerNames hheader)
  case acyclic =>
    obtain ⟨rank, hrank⟩ := h.acyclic
    refine ⟨rank, fun p hp n hn ⟨q, hq, hname⟩ => ?_⟩
    exact hrank p (mem_overridable.mp hp).1 n hn ⟨q, (mem_overridable.mp hq).1, hname⟩

/-- The child has the constants of the module. -/
theorem elaborated_child (h : Elaborated S m overrides env) :
    Elaborated S { m with name } ((buildPassThroughInstance S.exprs.identifier m name instanceName).override S
      (wrapperEnv S m env)) env := by
  refine ⟨fun p hp => ?_, h.other, h.resolved, h.acyclic⟩
  obtain ⟨v, hv, henv⟩ := h.value p hp
  refine ⟨v, ?_, henv⟩
  obtain ⟨u, hu, hconvert⟩ := Option.bind_eq_some_iff.mp hv
  cases hlocal : p.isLocal with
  | true =>
    rw [Parameter.given, if_pos hlocal] at hu ⊢
    exact Option.bind_eq_some_iff.mpr ⟨u, hu, hconvert⟩
  | false =>
    rw [Parameter.given, if_neg (by rw [hlocal]; exact Bool.false_ne_true), override_passThrough (m := m) hp hlocal,
      wrapperEnv_overridable (m := m) hp hlocal, henv]
    exact Parameter.convert_convert hconvert

/-- What the module does the wrapper does. -/
theorem instanceBehaviours_of_behaviours (hsafe : PushDownSafe S.exprs dialect m)
    {b : List PortShape × (String → Wave)} (h : b ∈ behaviours S m overrides) :
    b ∈ instanceBehaviours S dialect (wrapperModule S.exprs.identifier m name instanceName) { m with name } overrides := by
  obtain ⟨env, helab, hshapes, hrun⟩ := h
  refine ⟨wrapperEnv S m env, _, rfl, rfl, elaborated_wrapper hsafe helab, ?_, b,
    ⟨env, elaborated_child helab, hshapes, hrun⟩, fun conn hconn => ?_⟩
  · exact (shapes_congr fun n hn => wrapperEnv_header hsafe helab hn).trans hshapes
  · obtain ⟨p, hp, rfl⟩ := List.mem_map.mp hconn
    obtain ⟨q, hq, p', hp', _, hshape⟩ := find_shape hshapes hp
    refine ⟨p.name, p.name, q, q, rfl, rfl, rfl, hq, hq, fun hout => ?_, (S.linked_self _ _ _).mpr rfl⟩
    obtain ⟨_, hdirection, htype, hdefault⟩ := Port.shape_eq hshape
    rw [htype, hdefault]
    exact hsafe.outputs p' hp' (hdirection.symm.trans hout)

/-- The constants of the child are those of the wrapper. -/
theorem child_constants (hsafe : PushDownSafe S.exprs dialect m)
    (hwrapper : Elaborated S (wrapperModule S.exprs.identifier m name instanceName) overrides env)
    (hchild : Elaborated S { m with name }
      ((buildPassThroughInstance S.exprs.identifier m name instanceName).override S env) env')
    {p : Parameter Expr} (hp : p ∈ m.parameters) (hlocal : p.isLocal = false) : env' p.name = env p.name := by
  obtain ⟨rank, hrank⟩ := hchild.acyclic
  induction hr : rank p.name using Nat.strong_induction_on generalizing p with
  | _ r ih =>
    -- the names in the declaration of `p` have the same values, by induction on the rank
    have hnames : ∀ n ∈ p.names S.exprs, env' n = env n := by
      intro n hn
      by_cases hdeclared : ∃ q ∈ m.parameters, q.name = n
      · obtain ⟨q, hq, rfl⟩ := hdeclared
        cases hqlocal : q.isLocal with
        | true => exact absurd rfl (hsafe.header q.name (headerNames_of_parameter hp hlocal hn) q hq hqlocal)
        | false =>
          have hlt : rank q.name < r := hr ▸ hrank p hp q.name hn ⟨q, hq, rfl⟩
          exact ih _ hlt hq hqlocal rfl
      · have hnone : ∀ q ∈ m.parameters, q.name ≠ n := fun q hq hname => hdeclared ⟨q, hq, hname⟩
        exact (hchild.other n hnone).trans (hwrapper.other n fun q hq => hnone q (mem_overridable.mp hq).1).symm
    obtain ⟨v, hv, henv⟩ := hwrapper.value p (mem_overridable.mpr ⟨hp, hlocal⟩)
    obtain ⟨_, _, hconvert⟩ := Option.bind_eq_some_iff.mp hv
    obtain ⟨v', hv', henv'⟩ := hchild.value p hp
    rw [Parameter.given, if_neg (by rw [hlocal]; exact Bool.false_ne_true), override_passThrough (m := m) hp hlocal, henv] at hv'
    change p.convert S.exprs env' v = some v' at hv'
    rw [Parameter.convert_congr hnames, Parameter.convert_convert hconvert] at hv'
    rw [henv, henv', hv']

/-- What the wrapper does the module does. -/
theorem behaviours_of_instanceBehaviours (hsafe : PushDownSafe S.exprs dialect m)
    {b : List PortShape × (String → Wave)}
    (h : b ∈ instanceBehaviours S dialect (wrapperModule S.exprs.identifier m name instanceName) { m with name }
      overrides) : b ∈ behaviours S m overrides := by
  obtain ⟨env, inst, hbody, _, hwrapper, hshapes, c, ⟨env', hchild, hshapes', hrun⟩, hconns⟩ := h
  obtain rfl : buildPassThroughInstance S.exprs.identifier m name instanceName = inst := by
    injection hbody with _ _ _ _ _ hinst
    exact (List.cons.inj hinst).1
  have hnames : ∀ n ∈ m.headerNames S.exprs, env' n = env n := by
    intro n hn
    by_cases hdeclared : ∃ q ∈ m.parameters, q.name = n
    · obtain ⟨q, hq, rfl⟩ := hdeclared
      cases hlocal : q.isLocal with
      | true => exact absurd rfl (hsafe.header q.name hn q hq hlocal)
      | false => exact child_constants hsafe hwrapper hchild hq hlocal
    · have hnone : ∀ q ∈ m.parameters, q.name ≠ n := fun q hq hname => hdeclared ⟨q, hq, hname⟩
      exact (hchild.other n hnone).trans (hwrapper.other n fun q hq => hnone q (mem_overridable.mp hq).1).symm
  have heq : c.1 = b.1 := Option.some.inj (hshapes'.symm.trans ((shapes_congr hnames).trans hshapes))
  refine ⟨env', ⟨fun p hp => ?_, hchild.other, hchild.resolved, hchild.acyclic⟩, ?_, ?_⟩
  · cases hlocal : p.isLocal with
    | true =>
      have hvalue := hchild.value p hp
      rw [Parameter.given, if_pos hlocal] at hvalue ⊢
      exact hvalue
    | false =>
      have hp' : ∀ n ∈ p.names S.exprs, env' n = env n := fun n hn =>
        hnames n (headerNames_of_parameter hp hlocal hn)
      obtain ⟨v, hv, henv⟩ := hwrapper.value p (mem_overridable.mpr ⟨hp, hlocal⟩)
      refine ⟨v, ?_, (child_constants hsafe hwrapper hchild hp hlocal).trans henv⟩
      rw [Parameter.given_congr hp', funext fun u => Parameter.convert_congr hp' u]
      exact hv
  · exact heq ▸ hshapes'
  · rw [← heq]
    refine S.run_congr _ _ _ c.2 b.2 (fun s hs => ?_) hrun
    -- the port is connected to the port of the same name and shape
    obtain ⟨p, hp, hshape⟩ := (mem_of_mapM hshapes').2 s hs
    obtain ⟨n, portName, q, q', _, hexpr, hport, hq, hq', _, hlinked⟩ :=
      hconns _ (List.mem_map_of_mem hp)
    obtain rfl : p.name = n := S.exprs.identifier_injective (Option.some.inj hexpr)
    obtain rfl : p.name = portName := Option.some.inj hport
    rw [heq, hq] at hq'
    cases hq'
    rw [(Port.shape_eq hshape).1]
    exact ((S.linked_self _ _ _).mp hlinked).symm

/-- A wrapper that does what the module does has a header of its own and outputs that an instance may drive. -/
theorem safe_of_instanceBehaviours (hdistinct : DistinctNames S m) {b : List PortShape × (String → Wave)}
    (h : b ∈ instanceBehaviours S dialect (wrapperModule S.exprs.identifier m name instanceName) { m with name }
      overrides) : PushDownSafe S.exprs dialect m := by
  obtain ⟨env, inst, hbody, _, hwrapper, hshapes, c, ⟨env', hchild, hshapes', hrun⟩, hconns⟩ := h
  obtain rfl : buildPassThroughInstance S.exprs.identifier m name instanceName = inst := by
    injection hbody with _ _ _ _ _ hinst
    exact (List.cons.inj hinst).1
  constructor
  case header =>
    intro n hn p hp hlocal hname
    obtain ⟨himported, hother⟩ := hdistinct.localparams p hp hlocal
    have hnone : env n = none := by
      rw [hwrapper.other n fun q hq => ?_, ← hname]
      · exact himported
      · obtain ⟨hq, hqlocal⟩ := mem_overridable.mp hq
        rw [← hname]
        exact hother q hq hqlocal
    have hsome := hwrapper.resolved n hn
    rw [hnone] at hsome
    exact Bool.false_ne_true hsome
  case outputs =>
    intro p hp hout
    obtain ⟨n, portName, s, s', _, hexpr, hport, hs, hs', hdrivable, _⟩ := hconns _ (List.mem_map_of_mem hp)
    obtain rfl : p.name = n := S.exprs.identifier_injective (Option.some.inj hexpr)
    obtain rfl : p.name = portName := Option.some.inj hport
    -- both are the port itself
    have hsame : ∀ {ρ shapes s}, m.ports.mapM (Port.shape S.exprs · ρ) = some shapes →
        shapes.find? (·.name == p.name) = some s → p.shape S.exprs ρ = some s := by
      intro ρ shapes s hmap hfind
      obtain ⟨q, hq, p', hp', hname, hshape⟩ := find_shape hmap hp
      rw [hfind] at hq
      cases hq
      rw [← List.inj_on_of_nodup_map hdistinct.ports hp' hp hname]
      exact hshape
    obtain ⟨_, _, htype, hdefault⟩ := Port.shape_eq (hsame hshapes hs)
    obtain ⟨_, hdirection, _, _⟩ := Port.shape_eq (hsame hshapes' hs')
    rw [← htype, ← hdefault]
    exact hdrivable (hdirection.trans hout)

end Wrapper

/-- The wrapper has the ports of the module and gives them the same histories under every override, provided that
its header mentions no localparam and the child may drive its outputs; and for a module with distinct names that can
be elaborated at all only then. -/
theorem pushDown_preserves {S : Semantics Expr Item Wave} {quoted : String → String} {design : List (Module Expr Item)}
    {newModuleName : Option String} {m wrapper child : Module Expr Item} {instanceName file : String}
    {originalText : Line} (dialect : Dialect)
    (h : buildPushDownEdit S.exprs.identifier quoted design newModuleName m instanceName file originalText =
      .ok (wrapper, child)) :
    (PushDownSafe S.exprs dialect m →
      ∀ overrides, instanceBehaviours S dialect wrapper child overrides = behaviours S m overrides) ∧
    (DistinctNames S m → (∃ overrides, (behaviours S m overrides).Nonempty) →
      (∀ overrides, instanceBehaviours S dialect wrapper child overrides = behaviours S m overrides) →
      PushDownSafe S.exprs dialect m) := by
  obtain ⟨name, rfl, rfl⟩ := buildPushDownEdit_ok h
  refine ⟨fun hsafe overrides => ?_, fun hdistinct ⟨overrides, b, hb⟩ heq => ?_⟩
  · apply Set.ext
    intro b
    exact ⟨behaviours_of_instanceBehaviours hsafe, instanceBehaviours_of_behaviours hsafe⟩
  · rw [← heq overrides] at hb
    exact safe_of_instanceBehaviours hdistinct hb

/-! ## A small module -/

/-- A name or a number. -/
def simpleExprs : ConstExprs (String ⊕ Int) where
  identifier := Sum.inl
  names := Sum.elim (fun n => [n]) fun _ => []
  eval e env := e.elim env some
  identifier_injective := Sum.inl_injective
  eval_identifier _ _ := rfl
  eval_congr e env env' h := by
    cases e with
    | inl n => exact h n List.mem_cons_self
    | inr v => rfl

/-- Bodies that hold the output `y` at the value of the input `a`. -/
def copySemantics : Semantics (String ⊕ Int) Unit (Nat → Int) where
  exprs := simpleExprs
  imported _ _ := none
  run _ _ shapes := {w | (∃ p ∈ shapes, p.name = "a") → (∃ p ∈ shapes, p.name = "y") → w "y" = w "a"}
  run_congr _ _ _ w w' h hw ha hy := by
    have hwa : w "a" = w' "a" := ha.elim fun p hp => hp.2 ▸ h p hp.1
    have hwy : w "y" = w' "y" := hy.elim fun p hp => hp.2 ▸ h p hp.1
    rw [← hwa, ← hwy]
    exact hw ha hy
  linked _ _ w w' := w = w'
  linked_self _ _ _ := Iff.rfl

/-- `module buf (input [W:0] a, output [W:0] y); assign y = a; endmodule`, where `W = 7` is a parameter in a parameter
list or a localparam. -/
def bufModule (isLocal : Bool) : Module (String ⊕ Int) Unit where
  name := "buf"
  parameters := [⟨"W", none, none, false, some (.inr 7), isLocal⟩]
  ports := [⟨"a", .input, none, none, some ⟨.inl "W", .inr 0⟩, [], 0, false, false, none⟩,
    ⟨"y", .output, none, none, some ⟨.inl "W", .inr 0⟩, [], 0, false, false, none⟩]
  imports := []
  body := { Body.ofInstances [] with continuousAssigns := [()] }

/-- What the edit of the module writes. -/
def pushedDown (isLocal : Bool) :
    Except RefactorDiagnostic (Module (String ⊕ Int) Unit × Module (String ⊕ Int) Unit) :=
  buildPushDownEdit .inl id [bufModule isLocal] (some "buf_core") (bufModule isLocal) "u_buf_core" "buf.v" ['m']

theorem pushDown_preserves_buf :
    instanceBehaviours copySemantics .verilog2005 (wrapperModule .inl (bufModule false) "buf_core" "u_buf_core")
      { bufModule false with name := "buf_core" } (fun _ => some 3) =
        behaviours copySemantics (bufModule false) (fun _ => some 3) := by
  have hedit : pushedDown false = .ok (wrapperModule .inl (bufModule false) "buf_core" "u_buf_core",
      { bufModule false with name := "buf_core" }) := by decide
  unfold pushedDown at hedit
  refine (pushDown_preserves (S := copySemantics) .verilog2005 hedit).1 ⟨?_, ?_⟩ (fun _ => some 3)
  · decide
  · decide

/-- With a localparam the wrapper mentions a name that only its child declares. -/
theorem pushDown_localparam :
    pushedDown true = .ok (wrapperModule .inl (bufModule true) "buf_core" "u_buf_core",
      { bufModule true with name := "buf_core" }) ∧
    ¬∀ overrides, instanceBehaviours copySemantics .sv (wrapperModule .inl (bufModule true) "buf_core" "u_buf_core")
      { bufModule true with name := "buf_core" } overrides = behaviours copySemantics (bufModule true) overrides := by
  refine ⟨by decide, fun h => ?_⟩
  let env : ConstEnv := fun n => if n = "W" then some 7 else none
  have helab : Elaborated copySemantics (bufModule true) (fun _ => none) env := by
    refine ⟨fun p hp => ?_, fun n hn => if_neg fun hname => ?_, by decide, fun _ => 0, by decide⟩
    · rw [List.mem_singleton.mp hp]
      exact ⟨7, rfl, rfl⟩
    · exact hn _ List.mem_cons_self hname.symm
  have hshapes : ∃ shapes, (bufModule true).ports.mapM (Port.shape copySemantics.exprs · env) = some shapes := ⟨_, rfl⟩
  obtain ⟨shapes, hshapes⟩ := hshapes
  have hmem : (shapes, fun _ _ => 0) ∈ behaviours copySemantics (bufModule true) (fun _ => none) :=
    ⟨env, helab, hshapes, fun _ _ => rfl⟩
  rw [← h] at hmem
  have hsafe := safe_of_instanceBehaviours (m := bufModule true) ⟨by decide, by decide⟩ hmem
  exact hsafe.header "W" (by decide) _ List.mem_cons_self rfl rfl

end Veriforge.Refactor

import Mathlib.Data.List.Sort
import Mathlib.Logic.Function.Basic
import Veriforge.Project.Cache
import Veriforge.Text

/-! # The compiled-module cache

`CompiledScheduler.elaborate` (`sim/compiled/compiled_scheduler.py`) with its two caches: the tables of an
elaboration under the hash of what it was asked for, and the extension modules of `CythonCompiler`
(`sim/compiled/compiler.py`) under the hash of their source. Hashes are read as the things they stand for; what
is the same in every construction (the hash of the code generator, the versions, the platform) is left out of
the keys. A construction that raises returns nothing. -/

namespace Veriforge.Compiled

open Veriforge.Project (FileSystem)

/-! ## Options -/

/-- `os.environ` -/
abbrev Env := String → Option String

/-- `get_env` -/
def getEnv (env : Env) (suffix : String) : Option String :=
  (env ("VERIFORGE_" ++ suffix)).or (env ("VERILOG_TOOLS_" ++ suffix))

/-- The options of `_build_configuration`. -/
structure BuildOptions where
  split : Bool
  deltaEngine : String
  helpers : String
  snapshots : String
  shareProcesses : Bool
  compileJobs : Option Int
  compileMemoryMb : Option Int
  compileWorkerMemoryMb : Option Int
  checkMemSnapshot : Bool
  toolchain : List (String × String)
  deriving DecidableEq

/-- An option with a default that has to be one of several words, up to case and blanks around it. -/
def modeOption (env : Env) (suffix default : String) (modes : List String) : Option String :=
  let raw := (getEnv env suffix).getD default
  let mode := String.ofList ((strip (if raw = "" then default else raw).toList).map Char.toLower)
  if mode ∈ modes then some mode else none

/-- `delta_engine_mode` -/
def deltaEngineMode (env : Env) : Option String := modeOption env "DELTA_ENGINE" "auto" ["auto", "scan", "queue"]

/-- `helper_mode` -/
def helperMode (env : Env) : Option String := modeOption env "COMPILE_HELPERS" "needed" ["all", "needed"]

/-- `snapshot_mode` -/
def snapshotMode (env : Env) : Option String := modeOption env "COMPILE_SNAPSHOTS" "needed" ["all", "needed"]

/-- `sharing_enabled` -/
def sharingEnabled (env : Env) : Option Bool :=
  (modeOption env "COMPILE_SHARE_PROCESSES" "0" ["0", "1", "false", "true"]).map fun v => v == "1" || v == "true"

/-- The environment variables of the C compiler and the linker. -/
def toolchainNames : List String :=
  ["CC", "CXX", "CFLAGS", "CXXFLAGS", "CPPFLAGS", "LDFLAGS", "LDSHARED", "CL", "_CL_", "LINK", "LIB", "INCLUDE"]

/-- What the cache stands on: the code generator, the compilers, and `int` of a string. -/
structure Tools (Module Source Binary Tables : Type) where
  /-- `module.name` -/
  name : Module → String
  /-- `emit_module` -/
  emitModule : Module → String
  /-- `CythonCodegen.generate_to_files` with the `delta_limit`: the source, and the tables of the signals and memories. -/
  generateToFiles : Module → Nat → Env → Option (Source × Tables)
  /-- Cython and the C compiler under the options of the build. -/
  compile : Source → BuildOptions → Option Binary
  int : String → Option Int

variable {Module Source Binary Tables : Type} (tools : Tools Module Source Binary Tables)

/-- `positive_option`: `none` where it raises. -/
def positiveOption (env : Env) (suffix : String) (default : Option Int) : Option (Option Int) :=
  let value :=
    match getEnv env suffix with
    | none => some default
    | some raw => if raw = "" then some default else (tools.int raw).map some
  value.bind fun v => if v.any (· < 1) then none else some v

/-- `_build_configuration` -/
def buildConfiguration (env : Env) : Option BuildOptions := do
  let deltaEngine ← deltaEngineMode env
  let helpers ← helperMode env
  let snapshots ← snapshotMode env
  let shareProcesses ← sharingEnabled env
  let compileJobs ← positiveOption tools env "COMPILE_JOBS" (some 4)
  let compileMemoryMb ← positiveOption tools env "COMPILE_MEMORY_MB" none
  let compileWorkerMemoryMb ← positiveOption tools env "COMPILE_WORKER_MEMORY_MB" (some 1024)
  return {
    split := (getEnv env "COMPILE_SPLIT").getD "0" ∈ ["1", "true", "True"]
    deltaEngine, helpers, snapshots, shareProcesses, compileJobs, compileMemoryMb, compileWorkerMemoryMb
    checkMemSnapshot := (getEnv env "CHECK_MEM_SNAPSHOT").getD "0" = "1"
    toolchain := toolchainNames.map fun n => (n, (env n).getD "") }

/-- `VERIFORGE_NO_COMPILE_CACHE=1` -/
def noCompileCache (env : Env) : Bool := (getEnv env "NO_COMPILE_CACHE").getD "" = "1"

/-! ## Constructions -/

/-- `Simulator(module, engine="compiled")`: the module as it reaches `elaborate`, the `source_files` of its
design, and the environment and the files as they are then. -/
structure Construction (Module : Type) where
  module : Module
  sourceFiles : List String
  deltaLimit : Nat
  env : Env
  fs : FileSystem

/-- What `_compute_elab_hash` hashes. -/
structure ElabKey where
  name : String
  options : BuildOptions
  /-- The `delta_limit` and, right after it, the files one after the other. -/
  text : String
  deriving DecidableEq

/-- The text of the files: one that cannot be read gives the text of the module. -/
def hashedFiles (c : Construction Module) : String :=
  String.join ((c.sourceFiles.insertionSort (· ≤ ·)).map fun f => (c.fs f).getD (tools.emitModule c.module))

/-- `_compute_elab_hash` -/
def computeElabHash (c : Construction Module) (options : BuildOptions) : ElabKey :=
  ⟨tools.name c.module, options, toString c.deltaLimit ++ hashedFiles tools c⟩

/-- `_keyed_module_name` of `_cache_key_from_source_hash`. -/
structure BuildKey (Source : Type) where
  name : String
  source : Source
  options : BuildOptions
  deriving DecidableEq

/-- The cache directory: the elaborations with the name of their extension, and the extensions. -/
structure Cache (Source Binary Tables : Type) where
  elaborations : ElabKey → Option (BuildKey Source × Tables)
  builds : BuildKey Source → Option Binary

/-- The elaborated simulator: the extension, its tables, and the module for what the reference executor runs. -/
structure Sim (Module Binary Tables : Type) where
  binary : Binary
  tables : Tables
  module : Module
  deriving DecidableEq

variable [DecidableEq Source]

/-- `compile_pyx_files`. A build without the cache lies in a directory of its own that is not looked up again. -/
def compilePyxFiles (cache : Cache Source Binary Tables) (uncached : Bool) (key : BuildKey Source) :
    Option (Binary × Cache Source Binary Tables) :=
  if uncached then (tools.compile key.source key.options).map fun b => (b, cache)
  else
    match cache.builds key with
    | some b => some (b, cache)
    | none =>
        (tools.compile key.source key.options).map fun b =>
          (b, { cache with builds := Function.update cache.builds key (some b) })

/-- The hash `elaborate` looks up, if it does. -/
def elabHash (c : Construction Module) (options : BuildOptions) : Option ElabKey :=
  if c.sourceFiles ≠ [] ∧ noCompileCache c.env = false then some (computeElabHash tools c options) else none

/-- What is in the cache under a hash: the extension, and the tables stored with it. -/
def loadCached (cache : Cache Source Binary Tables) (hash : ElabKey) : Option (Binary × Tables) :=
  (cache.elaborations hash).bind fun e => (cache.builds e.1).map fun b => (b, e.2)

/-- `_save_elab_cache` -/
def saveElab (cache : Cache Source Binary Tables) (hash : Option ElabKey) (key : BuildKey Source) (tables : Tables) :
    Cache Source Binary Tables :=
  match hash with
  | none => cache
  | some h => { cache with elaborations := Function.update cache.elaborations h (some (key, tables)) }

/-- `elaborate` on a miss. -/
def elaborateMiss (c : Construction Module) (options : BuildOptions) (cache : Cache Source Binary Tables) :
    Option (Sim Module Binary Tables × Cache Source Binary Tables) := do
  let (source, tables) ← tools.generateToFiles c.module c.deltaLimit c.env
  let key : BuildKey Source := ⟨tools.name c.module, source, options⟩
  let (binary, cache') ← compilePyxFiles tools cache (noCompileCache c.env) key
  return (⟨binary, tables, c.module⟩, saveElab cache' (elabHash tools c options) key tables)

/-- `elaborate` -/
def elaborate (c : Construction Module) (cache : Cache Source Binary Tables) :
    Option (Sim Module Binary Tables × Cache Source Binary Tables) := do
  let options ← buildConfiguration tools c.env
  match (elabHash tools c options).bind (loadCached cache) with
  | some (binary, tables) => return (⟨binary, tables, c.module⟩, cache)
  | none => elaborateMiss tools c options cache

/-- The simulators of a sequence of constructions sharing one cache directory. -/
def simulators : List (Construction Module) → Cache Source Binary Tables → List (Option (Sim Module Binary Tables))
  | [], _ => []
  | c :: cs, cache =>
      match elaborate tools c cache with
      | none => none :: simulators cs cache
      | some (sim, cache') => some sim :: simulators cs cache'

/-! ## Transparency -/

/-- The simulator that is built from the module. -/
def built (c : Construction Module) : Option (Sim Module Binary Tables) := do
  let options ← buildConfiguration tools c.env
  let (source, tables) ← tools.generateToFiles c.module c.deltaLimit c.env
  let binary ← tools.compile source options
  return ⟨binary, tables, c.module⟩

variable {tools}

/-- A hit, or a miss. -/
theorem elaborate_of_options {c : Construction Module} {options : BuildOptions}
    (h : buildConfiguration tools c.env = some options) (cache : Cache Source Binary Tables) :
    elaborate tools c cache = match (elabHash tools c options).bind (loadCached cache) with
      | some hit => some (⟨hit.1, hit.2, c.module⟩, cache)
      | none => elaborateMiss tools c options cache := by
  rw [elaborate, h]
  change (match (elabHash tools c options).bind (loadCached cache) with
    | some (binary, tables) => _
    | none => _) = _
  cases (elabHash tools c options).bind (loadCached cache) <;> rfl

/-- Nothing is built where code generation raises. -/
theorem elaborateMiss_of_none {c : Construction Module} {options : BuildOptions} {cache : Cache Source Binary Tables}
    (h : tools.generateToFiles c.module c.deltaLimit c.env = none) : elaborateMiss tools c options cache = none := by
  rw [elaborateMiss, h]
  rfl

theorem elaborateMiss_of_some {c : Construction Module} {options : BuildOptions} {cache : Cache Source Binary Tables}
    {source : Source} {tables : Tables}
    (h : tools.generateToFiles c.module c.deltaLimit c.env = some (source, tables)) :
    elaborateMiss tools c options cache =
      (compilePyxFiles tools cache (noCompileCache c.env) ⟨tools.name c.module, source, options⟩).map fun r =>
        (⟨r.1, tables, c.module⟩,
          saveElab r.2 (elabHash tools c options) ⟨tools.name c.module, source, options⟩ tables) := by
  rw [elaborateMiss, h]
  change (compilePyxFiles tools cache (noCompileCache c.env) ⟨tools.name c.module, source, options⟩).bind _ = _
  cases compilePyxFiles tools cache (noCompileCache c.env) ⟨tools.name c.module, source, options⟩ <;> rfl

omit [DecidableEq Source] in
theorem built_of_none {c : Construction Module} (h : tools.generateToFiles c.module c.deltaLimit c.env = none) :
    built tools c = none := by
  rw [built, h]
  cases buildConfiguration tools c.env <;> rfl

omit [DecidableEq Source] in
theorem built_of_some {c : Construction Module} {options : BuildOptions} {source : Source} {tables : Tables}
    (hoptions : buildConfiguration tools c.env = some options)
    (h : tools.generateToFiles c.module c.deltaLimit c.env = some (source, tables)) :
    built tools c = (tools.compile source options).map fun b => ⟨b, tables, c.module⟩ := by
  rw [built, hoptions, h]
  change (tools.compile source options).bind _ = _
  cases tools.compile source options <;> rfl

/-- The hash a construction looks up. -/
def lookedUp (tools : Tools Module Source Binary Tables) (c : Construction Module) : Option ElabKey :=
  (buildConfiguration tools c.env).bind (elabHash tools c)

/-- If the one has been built and both are looked up under one hash, the same code is generated for both. -/
def SameCode (tools : Tools Module Source Binary Tables) (a c : Construction Module) : Prop :=
  ∀ k, lookedUp tools a = some k → lookedUp tools c = some k → (built tools a).isSome →
    tools.generateToFiles c.module c.deltaLimit c.env = tools.generateToFiles a.module a.deltaLimit a.env

omit [DecidableEq Source] in
theorem options_of_lookedUp {c : Construction Module} {k : ElabKey} (h : lookedUp tools c = some k) :
    buildConfiguration tools c.env = some k.options ∧ elabHash tools c k.options = some k := by
  obtain ⟨options, hoptions, hk⟩ := Option.bind_eq_some_iff.mp h
  have hopts : k.options = options := by
    unfold elabHash at hk
    split at hk
    · rw [← Option.some.inj hk]
      rfl
    · exact absurd hk.symm (Option.some_ne_none _)
  exact ⟨hopts ▸ hoptions, hopts ▸ hk⟩

/-- What the cache holds after some constructions: extensions of their sources, and for a hash the code of a
construction that was looked up under it. -/
structure Sound (tools : Tools Module Source Binary Tables) (past : List (Construction Module))
    (cache : Cache Source Binary Tables) : Prop where
  builds : ∀ key b, cache.builds key = some b → tools.compile key.source key.options = some b
  elaborations : ∀ k e, cache.elaborations k = some e → ∃ a ∈ past, ∃ source b, lookedUp tools a = some k ∧
    tools.generateToFiles a.module a.deltaLimit a.env = some (source, e.2) ∧
    tools.compile source k.options = some b ∧ e.1 = ⟨tools.name a.module, source, k.options⟩

/-- The empty cache directory. -/
def Cache.empty : Cache Source Binary Tables := ⟨fun _ => none, fun _ => none⟩

omit [DecidableEq Source] in
theorem sound_empty : Sound tools [] (Cache.empty : Cache Source Binary Tables) :=
  ⟨fun _ _ h => absurd h.symm (Option.some_ne_none _), fun _ _ h => absurd h.symm (Option.some_ne_none _)⟩

omit [DecidableEq Source] in
theorem Sound.cons {past : List (Construction Module)} {cache : Cache Source Binary Tables}
    (h : Sound tools past cache) (c : Construction Module) : Sound tools (c :: past) cache := by
  refine ⟨h.builds, fun k e he => ?_⟩
  obtain ⟨a, ha, hrest⟩ := h.elaborations k e he
  exact ⟨a, List.mem_cons_of_mem _ ha, hrest⟩

/-- The second cache gives what the compiler gives, and stays sound. -/
theorem compilePyxFiles_eq {past : List (Construction Module)} {cache : Cache Source Binary Tables}
    (h : Sound tools past cache) (uncached : Bool) (key : BuildKey Source) :
    (compilePyxFiles tools cache uncached key).map Prod.fst = tools.compile key.source key.options ∧
      ∀ r, compilePyxFiles tools cache uncached key = some r → Sound tools past r.2 := by
  rw [compilePyxFiles]
  cases uncached with
  | true =>
    rw [if_pos rfl, Option.map_map]
    refine ⟨Option.map_id', fun r hr => ?_⟩
    obtain ⟨b, _, rfl⟩ := Option.map_eq_some_iff.mp hr
    exact h
  | false =>
    rw [if_neg Bool.false_ne_true]
    cases hkey : cache.builds key with
    | some b =>
      refine ⟨(h.builds key b hkey).symm, fun r hr => ?_⟩
      rw [← Option.some.inj hr]
      exact h
    | none =>
      refine ⟨(Option.map_map _ _ _).trans (Option.map_id'), fun r hr => ?_⟩
      obtain ⟨b, hb, rfl⟩ := Option.map_eq_some_iff.mp hr
      refine ⟨fun key' b' hb' => ?_, h.elaborations⟩
      change Function.update cache.builds key (some b) key' = some b' at hb'
      by_cases hne : key' = key
      · subst hne
        rw [Function.update_self] at hb'
        exact hb.trans hb'
      · rw [Function.update_of_ne hne] at hb'
        exact h.builds key' b' hb'

/-- A hit gives the extension and the tables that would be built. -/
theorem built_of_hit {past : List (Construction Module)} {cache : Cache Source Binary Tables}
    (h : Sound tools past cache) {c : Construction Module} (hsame : ∀ a ∈ past, SameCode tools a c) {k : ElabKey}
    (hk : lookedUp tools c = some k) {b : Binary} {tables : Tables} (hhit : loadCached cache k = some (b, tables)) :
    built tools c = some ⟨b, tables, c.module⟩ := by
  obtain ⟨e, he, hload⟩ := Option.bind_eq_some_iff.mp hhit
  obtain ⟨b', hb', heq⟩ := Option.map_eq_some_iff.mp hload
  obtain ⟨rfl, rfl⟩ := Prod.mk.inj heq
  obtain ⟨a, ha, source, b, hak, hgen, hcompile, hname⟩ := h.elaborations k e he
  have hbuild := h.builds e.1 b' hb'
  rw [hname] at hbuild
  have hbuiltA : (built tools a).isSome := by
    rw [built_of_some (options_of_lookedUp hak).1 hgen, hcompile]
    rfl
  have hgenC := (hsame a ha k hak hk hbuiltA).trans hgen
  rw [built_of_some (options_of_lookedUp hk).1 hgenC, hbuild]
  rfl

/-- The elaboration is stored under the hash it was looked up under. -/
theorem Sound.save {past : List (Construction Module)} {cache : Cache Source Binary Tables}
    (h : Sound tools past cache) {c : Construction Module} {options : BuildOptions} {source : Source} {b : Binary}
    {tables : Tables} (hoptions : buildConfiguration tools c.env = some options)
    (hgen : tools.generateToFiles c.module c.deltaLimit c.env = some (source, tables))
    (hcompile : tools.compile source options = some b) :
    Sound tools (c :: past)
      (saveElab cache (elabHash tools c options) ⟨tools.name c.module, source, options⟩ tables) := by
  cases hhash : elabHash tools c options with
  | none => exact h.cons c
  | some k =>
    have hlooked : lookedUp tools c = some k := by rw [lookedUp, hoptions, Option.bind_some, hhash]
    have hk : k.options = options := Option.some.inj ((options_of_lookedUp hlooked).1.symm.trans hoptions)
    refine ⟨h.builds, fun k' e he => ?_⟩
    change Function.update cache.elaborations k _ k' = some e at he
    by_cases hne : k' = k
    · subst hne
      rw [Function.update_self] at he
      rw [← Option.some.inj he, hk]
      exact ⟨c, List.mem_cons_self, source, b, hlooked, hgen, hcompile, rfl⟩
    · rw [Function.update_of_ne hne] at he
      obtain ⟨a, ha, hrest⟩ := h.elaborations k' e he
      exact ⟨a, List.mem_cons_of_mem _ ha, hrest⟩

/-- One construction gives the simulator that would be built, and leaves the cache sound. -/
theorem elaborate_eq {past : List (Construction Module)} {cache : Cache Source Binary Tables}
    (h : Sound tools past cache) {c : Construction Module} (hsame : ∀ a ∈ past, SameCode tools a c) :
    (elaborate tools c cache).map Prod.fst = built tools c ∧
      ∀ r, elaborate tools c cache = some r → Sound tools (c :: past) r.2 := by
  cases hoptions : buildConfiguration tools c.env with
  | none =>
    have hnone : elaborate tools c cache = none := by
      rw [elaborate, hoptions]
      rfl
    refine ⟨?_, fun r hr => absurd (hr.symm.trans hnone) (Option.some_ne_none _)⟩
    rw [hnone, built, hoptions]
    rfl
  | some options =>
    rw [elaborate_of_options hoptions]
    cases hhit : (elabHash tools c options).bind (loadCached cache) with
    | some hit =>
      obtain ⟨k, hk, hhit⟩ := Option.bind_eq_some_iff.mp hhit
      have hlooked : lookedUp tools c = some k := by rw [lookedUp, hoptions, Option.bind_some, hk]
      refine ⟨(built_of_hit h hsame hlooked hhit).symm, fun r hr => ?_⟩
      rw [← Option.some.inj hr]
      exact h.cons c
    | none =>
      change (elaborateMiss tools c options cache).map Prod.fst = _ ∧ ∀ r, elaborateMiss tools c options cache = _ → _
      cases hgen : tools.generateToFiles c.module c.deltaLimit c.env with
      | none =>
        rw [elaborateMiss_of_none hgen, built_of_none hgen]
        exact ⟨rfl, fun r hr => absurd hr.symm (Option.some_ne_none _)⟩
      | some g =>
        obtain ⟨source, tables⟩ := g
        obtain ⟨hcompile, hsound⟩ :=
          compilePyxFiles_eq h (noCompileCache c.env) ⟨tools.name c.module, source, options⟩
        rw [elaborateMiss_of_some hgen, built_of_some hoptions hgen, ← hcompile, Option.map_map, Option.map_map]
        refine ⟨rfl, fun r hr => ?_⟩
        obtain ⟨q, hq, rfl⟩ := Option.map_eq_some_iff.mp hr
        refine (hsound q hq).save hoptions hgen (b := q.1) ?_
        rw [← hcompile, hq]
        rfl

/-- From a sound cache every construction gives the simulator that would be built. -/
theorem simulators_of_sound {past cs : List (Construction Module)} {cache : Cache Source Binary Tables}
    (h : Sound tools past cache) (hpast : ∀ a ∈ past, ∀ c ∈ cs, SameCode tools a c)
    (hcs : cs.Pairwise (SameCode tools)) : simulators tools cs cache = cs.map (built tools) := by
  induction cs generalizing past cache with
  | nil => rfl
  | cons c cs ih =>
    obtain ⟨hc, hcs⟩ := List.pairwise_cons.mp hcs
    obtain ⟨hbuilt, hsound⟩ := elaborate_eq h fun a ha => hpast a ha c List.mem_cons_self
    rw [simulators, List.map_cons, ← hbuilt]
    cases helab : elaborate tools c cache with
    | none => exact congrArg _ (ih h (fun a ha c' hc' => hpast a ha c' (List.mem_cons_of_mem _ hc')) hcs)
    | some r =>
      refine congrArg _ (ih (hsound r helab) (fun a ha c' hc' => ?_) hcs)
      rcases List.mem_cons.mp ha with rfl | ha
      · exact hc c' hc'
      · exact hpast a ha c' (List.mem_cons_of_mem _ hc')

/-- The cache is transparent in every history in which constructions that are looked up under one hash have the
same code generated for them. -/
theorem elaborate_transparent {cs : List (Construction Module)} (h : cs.Pairwise (SameCode tools)) :
    simulators tools cs (Cache.empty : Cache Source Binary Tables) = cs.map (built tools) :=
  simulators_of_sound sound_empty (fun _ ha => absurd ha List.not_mem_nil) h

/-- A code generator that writes the text of the module. -/
def textTools : Tools (String × String) String String Unit where
  name := Prod.fst
  emitModule := Prod.snd
  generateToFiles m _ _ := some (m.2, ())
  compile source _ := some source
  int _ := none

/-- `top.v` includes `width.vh` and takes the width of its output from it. -/
def widthConstruction (width : String) : Construction (String × String) where
  module := ("top", "output [" ++ width ++ ":0] y;")
  sourceFiles := ["top.v"]
  deltaLimit := 10000
  env _ := none
  fs f := if f = "top.v" then some "`include \"width.vh\"" else if f = "width.vh" then some width else none

theorem elaborate_transparent_same :
    simulators textTools [widthConstruction "7", widthConstruction "7"] Cache.empty =
      [widthConstruction "7", widthConstruction "7"].map (built textTools) := by
  refine elaborate_transparent (List.pairwise_pair.mpr ?_)
  exact fun _ _ _ _ => rfl

/-- After an edit of the included file the second simulator runs the code of the first. -/
theorem elaborate_not_transparent :
    simulators textTools [widthConstruction "7", widthConstruction "15"] Cache.empty ≠
      [widthConstruction "7", widthConstruction "15"].map (built textTools) := by
  decide

end Veriforge.Compiled

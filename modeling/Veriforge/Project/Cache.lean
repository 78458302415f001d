import Mathlib.Logic.Function.Basic

/-! # The parse cache of `parse_files`

`parse_files` of `project.py` with its per-file cache. A cache file is named by the resolved path, the hash
of the source and the stem of the path; hashes are read as the things they stand for. What the parser makes
of a file also depends on the options and, through `` `include ``, on other files, none of which is part of
the name. -/

namespace Veriforge.Project

/-! ## Designs -/

/-- A module, interface or package. -/
structure Named (Body : Type) where
  name : String
  body : Body
  deriving DecidableEq

/-- `Design`. -/
structure Design (Body : Type) where
  modules : List (Named Body)
  interfaces : List (Named Body)
  packages : List (Named Body)
  sourceFiles : List String
  deriving DecidableEq

variable {Body : Type}

/-- `Design()`. -/
def Design.empty : Design Body := ⟨[], [], [], []⟩

/-- The items whose name is not taken yet are appended, the first definition winning. -/
def addNamed (xs ys : List (Named Body)) : List (Named Body) :=
  ys.foldl (fun acc y => if acc.any (·.name == y.name) then acc else acc ++ [y]) xs

/-- `Design.merge`. -/
def Design.merge (a b : Design Body) : Design Body where
  modules := addNamed a.modules b.modules
  interfaces := addNamed a.interfaces b.interfaces
  packages := addNamed a.packages b.packages
  sourceFiles := b.sourceFiles.foldl (fun acc f => if acc.contains f then acc else acc ++ [f])
    a.sourceFiles

/-! ## Parsing one file -/

/-- The bytes of every regular file. -/
abbrev FileSystem := String → Option String

/-- The options of `parse_files`. -/
structure Options where
  comments : Bool := true
  analyze : Bool := true
  preprocess : Bool := false
  defines : List (String × String) := []
  includePaths : List String := []

/-- All that reaches the parser: the path, whether comments are extracted, the text to parse and the text
of the file. -/
structure Input where
  sourceFile : String
  comments : Bool
  parseText : String
  sourceText : String
  deriving DecidableEq

/-- What lies outside `project.py`: paths, the preprocessor, the parser and the linker. A run that raises
returns nothing. -/
structure Tools (Body : Type) where
  /-- `os.path.normcase(str(path.resolve()))` -/
  resolve : String → String
  stem : String → String
  /-- `read_text(encoding="utf-8")` of the bytes. -/
  decode : String → Option String
  /-- `preprocess` of a text, with the definitions, the include paths and the file it comes from. -/
  runPreprocess : String → List (String × String) → List String → String → FileSystem → Option String
  /-- `extract_comments`, `build_tree` and `tree_to_design`. -/
  build : Input → Option (Design Body)
  linkInstances : Design Body → Design Body

variable (tools : Tools Body)

/-- What `parse_file` hands to the parser. -/
def parserInput (opts : Options) (fs : FileSystem) (path : String) : Option Input := do
  let source ← (fs path).bind tools.decode
  let text ← if opts.preprocess then
      tools.runPreprocess source opts.defines opts.includePaths path fs
    else some source
  return ⟨path, opts.comments, text, source⟩

/-- `parse_file`. -/
def parseFile (opts : Options) (fs : FileSystem) (path : String) : Option (Design Body) :=
  (parserInput tools opts fs path).bind tools.build

/-! ## Parsing several -/

/-- The name of a cache file: `_path_hash`, the hash of the source, and the stem. -/
structure Key where
  path : String
  source : String
  stem : String
  deriving DecidableEq

/-- The name of the cache file of a path and its source. -/
def cacheKey (path source : String) : Key := ⟨tools.resolve path, source, tools.stem path⟩

/-- The cache directory. -/
abbrev Cache (Body : Type) := Key → Option (Design Body)

/-- The loop of `parse_files`, with the design merged so far. -/
def parseLoop (useCache : Bool) (opts : Options) (fs : FileSystem) :
    List String → Cache Body → Design Body → Option (Design Body) × Cache Body
  | [], cache, merged => (some merged, cache)
  | p :: ps, cache, merged =>
      match fs p with
      | none => parseLoop useCache opts fs ps cache merged
      | some source =>
          match if useCache then cache (cacheKey tools p source) else none with
          | some cached => parseLoop useCache opts fs ps cache (merged.merge cached)
          | none =>
              match parseFile tools opts fs p with
              | none => (none, cache)
              | some design =>
                  parseLoop useCache opts fs ps
                    (if useCache then Function.update cache (cacheKey tools p source) (some design)
                      else cache)
                    (merged.merge design)

/-- `link_instances`, when asked for and there is something to link. -/
def analyzed (opts : Options) (d : Design Body) : Design Body :=
  if opts.analyze && !d.modules.isEmpty then tools.linkInstances d else d

/-- `parse_files`. -/
def parseFiles (useCache : Bool) (opts : Options) (fs : FileSystem) (paths : List String)
    (cache : Cache Body) : Option (Design Body) × Cache Body :=
  if paths.isEmpty then (some .empty, cache)
  else
    let r := parseLoop tools useCache opts fs paths cache .empty
    (r.1.map (analyzed tools opts), r.2)

/-! ## Histories -/

/-- A call of `parse_files`, in the file system as it is then. -/
structure Call where
  fs : FileSystem
  opts : Options
  paths : List String
  cached : Bool

/-- The results of a sequence of calls sharing one cache directory. -/
def results : List Call → Cache Body → List (Option (Design Body))
  | [], _ => []
  | c :: cs, cache =>
      let r := parseFiles tools c.cached c.opts c.fs c.paths cache
      r.1 :: results cs r.2

/-- The result of a call that uses no cache. -/
def fresh (c : Call) : Option (Design Body) :=
  (parseFiles tools false c.opts c.fs c.paths fun _ => none).1

/-! ## What the cache was filled from -/

/-- The parser input each cache file was first asked for with. -/
abbrev Records := Key → Option Input

/-- A call adds the inputs of the files it visits. It stops at a file it cannot preprocess. -/
def recordFiles (opts : Options) (fs : FileSystem) : List String → Records → Records
  | [], R => R
  | p :: ps, R =>
      match fs p with
      | none => recordFiles opts fs ps R
      | some source =>
          match R (cacheKey tools p source), parserInput tools opts fs p with
          | some _, _ => recordFiles opts fs ps R
          | none, some i => recordFiles opts fs ps (Function.update R (cacheKey tools p source) (some i))
          | none, none => R

/-- Every file visited whose cache file was asked for before reaches the parser with the input it had then. -/
def SameInputs (opts : Options) (fs : FileSystem) : List String → Records → Prop
  | [], _ => True
  | p :: ps, R =>
      match fs p with
      | none => SameInputs opts fs ps R
      | some source =>
          match R (cacheKey tools p source), parserInput tools opts fs p with
          | some i, j => j = some i ∧ SameInputs opts fs ps R
          | none, some i => SameInputs opts fs ps (Function.update R (cacheKey tools p source) (some i))
          | none, none => True

/-- Every cached call of the history asks for what is recorded. -/
def Consistent : List Call → Records → Prop
  | [], _ => True
  | c :: cs, R =>
      if c.cached then SameInputs tools c.opts c.fs c.paths R ∧
        Consistent cs (recordFiles tools c.opts c.fs c.paths R)
      else Consistent cs R

variable {tools}

/-- A cache file holds what the parser makes of the input on record. -/
def Sound (tools : Tools Body) (cache : Cache Body) (R : Records) : Prop :=
  ∀ k d, cache k = some d → ∃ i, R k = some i ∧ tools.build i = some d

theorem sound_empty (R : Records) : Sound tools (fun _ => none) R := by
  intro k d h
  cases h

/-- A record for a file not asked for before tells nothing about the cache. -/
theorem Sound.record {cache : Cache Body} {R : Records} (h : Sound tools cache R) {k : Key}
    (hk : R k = none) (i : Input) : Sound tools cache (Function.update R k (some i)) := by
  intro k' d hd
  obtain ⟨j, hj, hb⟩ := h k' d hd
  have hne : k' ≠ k := by
    rintro rfl
    rw [hk] at hj
    cases hj
  exact ⟨j, by rw [Function.update_of_ne hne, hj], hb⟩

/-- Saving what the parser makes of the recorded input keeps the cache sound. -/
theorem Sound.save {cache : Cache Body} {R : Records} (h : Sound tools cache R) {k : Key} {i : Input}
    {d : Design Body} (hk : R k = some i) (hb : tools.build i = some d) :
    Sound tools (Function.update cache k (some d)) R := by
  intro k' d' hd
  by_cases hne : k' = k
  · subst hne
    rw [Function.update_self] at hd
    cases hd
    exact ⟨i, hk, hb⟩
  · rw [Function.update_of_ne hne] at hd
    exact h k' d' hd

theorem Sound.recordFiles {cache : Cache Body} {opts : Options} {fs : FileSystem} {ps : List String}
    {R : Records} (h : Sound tools cache R) : Sound tools cache (recordFiles tools opts fs ps R) := by
  induction ps generalizing R with
  | nil => exact h
  | cons p ps ih =>
    rw [Project.recordFiles]
    cases fs p with
    | none => exact ih h
    | some source =>
      dsimp only
      cases hR : R (cacheKey tools p source) with
      | some i => exact ih h
      | none =>
        cases parserInput tools opts fs p with
        | none => exact h
        | some i => exact ih (h.record hR i)

/-! ## Transparency -/

/-- One call: from a sound cache, and asked for what is on record, the loop merges what it would parse. -/
theorem parseLoop_eq {opts : Options} {fs : FileSystem} {ps : List String} {cache : Cache Body}
    {R : Records} (h : Sound tools cache R) (hs : SameInputs tools opts fs ps R)
    (cache' : Cache Body) (merged : Design Body) :
    (parseLoop tools true opts fs ps cache merged).1
        = (parseLoop tools false opts fs ps cache' merged).1 ∧
      Sound tools (parseLoop tools true opts fs ps cache merged).2 (recordFiles tools opts fs ps R) := by
  induction ps generalizing cache R merged with
  | nil => exact ⟨rfl, h⟩
  | cons p ps ih =>
    rw [parseLoop, parseLoop, recordFiles]
    rw [SameInputs] at hs
    cases hfs : fs p with
    | none =>
      rw [hfs] at hs
      exact ih h hs _
    | some source =>
      rw [hfs] at hs
      dsimp only at hs ⊢
      rw [if_pos rfl, if_neg Bool.false_ne_true]
      cases hR : R (cacheKey tools p source) with
      | some i =>
        rw [hR] at hs
        have hparse : parseFile tools opts fs p = tools.build i := by rw [parseFile, hs.1]; rfl
        cases hc : cache (cacheKey tools p source) with
        | some d =>
          -- a hit: the file on record is the one that would be parsed
          obtain ⟨j, hj, hb⟩ := h _ _ hc
          rw [hR] at hj
          cases hj
          dsimp only
          rw [hparse, hb]
          exact ih h hs.2 _
        | none =>
          dsimp only
          rw [hparse]
          cases hb : tools.build i with
          | none => exact ⟨rfl, h.recordFiles⟩
          | some d =>
            dsimp only
            rw [if_pos rfl, if_neg Bool.false_ne_true]
            exact ih (h.save hR hb) hs.2 _
      | none =>
        rw [hR] at hs
        have hc : cache (cacheKey tools p source) = none := by
          by_contra hne
          obtain ⟨d, hd⟩ := Option.ne_none_iff_exists'.mp hne
          obtain ⟨i, hi, -⟩ := h _ _ hd
          rw [hR] at hi
          cases hi
        rw [hc]
        cases hin : parserInput tools opts fs p with
        | none =>
          have hparse : parseFile tools opts fs p = none := by rw [parseFile, hin]; rfl
          dsimp only
          rw [hparse]
          exact ⟨rfl, h⟩
        | some i =>
          rw [hin] at hs
          have hparse : parseFile tools opts fs p = tools.build i := by rw [parseFile, hin]; rfl
          dsimp only at hs ⊢
          rw [hparse]
          cases hb : tools.build i with
          | none => exact ⟨rfl, (h.record hR i).recordFiles⟩
          | some d =>
            dsimp only
            rw [if_pos rfl, if_neg Bool.false_ne_true]
            exact ih ((h.record hR i).save (Function.update_self _ _ _) hb) hs _

theorem parseFiles_eq {opts : Options} {fs : FileSystem} {ps : List String} {cache : Cache Body}
    {R : Records} (h : Sound tools cache R) (hs : SameInputs tools opts fs ps R) (cache' : Cache Body) :
    (parseFiles tools true opts fs ps cache).1 = (parseFiles tools false opts fs ps cache').1 ∧
      Sound tools (parseFiles tools true opts fs ps cache).2 (recordFiles tools opts fs ps R) := by
  obtain ⟨hres, hsound⟩ := parseLoop_eq h hs cache' .empty
  cases ps with
  | nil => exact ⟨rfl, h⟩
  | cons p ps =>
    rw [parseFiles, parseFiles, if_neg (by simp), if_neg (by simp)]
    exact ⟨congrArg (Option.map (analyzed tools opts)) hres, hsound⟩

/-- Without a cache directory nothing is read from it or written to it. -/
theorem parseLoop_uncached (tools : Tools Body) (opts : Options) (fs : FileSystem) (ps : List String)
    (cache cache' : Cache Body) (merged : Design Body) :
    (parseLoop tools false opts fs ps cache merged).1
        = (parseLoop tools false opts fs ps cache' merged).1 ∧
      (parseLoop tools false opts fs ps cache merged).2 = cache := by
  induction ps generalizing merged with
  | nil => exact ⟨rfl, rfl⟩
  | cons p ps ih =>
    rw [parseLoop, parseLoop]
    cases fs p with
    | none => exact ih merged
    | some source =>
      dsimp only
      rw [if_neg Bool.false_ne_true, if_neg Bool.false_ne_true]
      cases parseFile tools opts fs p with
      | none => exact ⟨rfl, rfl⟩
      | some d => exact ih _

theorem parseFiles_uncached (tools : Tools Body) (opts : Options) (fs : FileSystem) (ps : List String)
    (cache cache' : Cache Body) :
    (parseFiles tools false opts fs ps cache).1 = (parseFiles tools false opts fs ps cache').1 ∧
      (parseFiles tools false opts fs ps cache).2 = cache := by
  obtain ⟨hres, hcache⟩ := parseLoop_uncached tools opts fs ps cache cache' .empty
  cases ps with
  | nil => exact ⟨rfl, rfl⟩
  | cons p ps =>
    rw [parseFiles, parseFiles, if_neg (by simp), if_neg (by simp)]
    exact ⟨congrArg (Option.map (analyzed tools opts)) hres, hcache⟩

/-- A whole history: from a sound cache every call returns what it would without one. -/
theorem results_of_sound {calls : List Call} {cache : Cache Body} {R : Records}
    (h : Sound tools cache R) (hc : Consistent tools calls R) :
    results tools calls cache = calls.map (fresh tools) := by
  induction calls generalizing cache R with
  | nil => rfl
  | cons c cs ih =>
    rw [results, List.map_cons]
    rw [Consistent] at hc
    cases hcached : c.cached with
    | true =>
      rw [hcached, if_pos rfl] at hc
      obtain ⟨hres, hsound⟩ := parseFiles_eq h hc.1 fun _ => none
      exact congrArg₂ _ hres (ih hsound hc.2)
    | false =>
      rw [hcached, if_neg Bool.false_ne_true] at hc
      obtain ⟨hres, hcache⟩ := parseFiles_uncached tools c.opts c.fs c.paths cache
        fun _ => none
      rw [hcache]
      exact congrArg₂ _ hres (ih h hc)

/-- The cache is transparent in every history in which a cache file is always asked for with the parser
input it was first asked for with. -/
theorem parseFiles_transparent {calls : List Call} (hc : Consistent tools calls fun _ => none) :
    results tools calls (fun _ => none) = calls.map (fresh tools) :=
  results_of_sound (sound_empty _) hc

/-! ## A stale design -/

/-- A module whose vector width is a macro. -/
def widthModule : String := "module m; wire [`W:0] a; endmodule"

/-- Paths and text as they are, a preprocessor that knows the one module, and a parser that keeps the text
it is given as the body of `m`. -/
def textTools : Tools String where
  resolve p := p
  stem p := p
  decode := some
  runPreprocess source defines _ _ _ :=
    if source = widthModule then
      (defines.lookup "W").map fun w => "module m; wire [" ++ w ++ ":0] a; endmodule"
    else some source
  build i := some ⟨[⟨"m", i.parseText⟩], [], [], [i.sourceFile]⟩
  linkInstances d := d

/-- `parse_files(["m.v"], preprocess=True, defines={"W": w}, cache_dir=...)`. -/
def parseWith (w : String) : Call where
  fs p := if p = "m.v" then some widthModule else none
  opts := { preprocess := true, defines := [("W", w)] }
  paths := ["m.v"]
  cached := true

/-- Asked for with another definition, the cache returns the design of the first one. -/
theorem results_stale :
    results textTools [parseWith "8", parseWith "16"] (fun _ => none)
      ≠ [parseWith "8", parseWith "16"].map (fresh textTools) := by
  decide

/-- Asked for with the same definition, it is transparent. -/
theorem results_same :
    results textTools [parseWith "8", parseWith "8"] (fun _ => none)
      = [parseWith "8", parseWith "8"].map (fresh textTools) := by
  refine parseFiles_transparent ?_
  have hinput : parserInput textTools (parseWith "8").opts (parseWith "8").fs "m.v"
      = some ⟨"m.v", true, "module m; wire [8:0] a; endmodule", widthModule⟩ := rfl
  have hfs : (parseWith "8").fs "m.v" = some widthModule := rfl
  have hpaths : (parseWith "8").paths = ["m.v"] := rfl
  have hcached : (parseWith "8").cached = true := rfl
  simp [Consistent, SameInputs, recordFiles, hpaths, hcached, hfs, hinput]

end Veriforge.Project

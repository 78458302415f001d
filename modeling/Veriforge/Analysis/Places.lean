import Veriforge.Analysis.Connectivity

/-! # Where names stand

Every name of a source with the place where it stands. What the execution does to the name, and what the analysis takes
it for, are told by its place, and they are not the same in each of them. -/

namespace Veriforge.Analysis

/-- The places of names, as far as the analysis and the execution tell them apart. -/
inductive Place
  /-- An operand that is evaluated. -/
  | value
  /-- The target of an assignment or of an output connection, through bit and range selects and concatenations. -/
  | target
  /-- A target below an indexed part select or in a streaming concatenation. -/
  | sliced
  /-- The same two of an inout connection. -/
  | targetBoth
  | slicedBoth
  /-- An index in a target. -/
  | index
  /-- The initial value of a variable of a block. -/
  | localValue
  /-- The event of a trigger. -/
  | event
  /-- An output argument of a task or a system task, or an inout argument. -/
  | output
  | outputBoth
  /-- An argument that is not evaluated. -/
  | idle
  /-- An expression that is assigned to and is no target. -/
  | unused
  deriving DecidableEq

namespace Place

/-- The execution writes what stands there. -/
def writes : Place → Bool
  | .target | .sliced | .targetBoth | .slicedBoth | .event | .output | .outputBoth => true
  | _ => false

/-- The execution reads what stands there. -/
def reads : Place → Bool
  | .value | .targetBoth | .slicedBoth | .index | .localValue | .event | .outputBoth => true
  | _ => false

/-- The analysis takes what stands there for driven. -/
def driver : Place → Bool
  | .target | .targetBoth => true
  | _ => false

/-- The analysis takes what stands there for read. -/
def load : Place → Bool
  | .value | .targetBoth | .slicedBoth | .output | .outputBoth | .idle => true
  | _ => false

end Place

/-- A name in its place. A name is hidden where it means something that a block, a loop or a routine declares. -/
structure Use where
  path : Path
  place : Place
  hidden : Bool

namespace Use

/-- What the execution does to the name. -/
def Has (u : Use) (e : Effect) : Prop :=
  u.hidden = false ∧ ((u.place.writes = true ∧ e = .write u.path) ∨ (u.place.reads = true ∧ e = .read u.path))

/-- What the analysis takes the name for. -/
def Shows (u : Use) (v : Visit) : Prop :=
  (u.place.driver = true ∧ v = .driver u.path.2) ∨ (u.place.load = true ∧ v = .load u.path.2)

end Use

/-- The names have exactly these effects and are shown exactly so. Calls are no matter of names. -/
structure Covers (us : List Use) (es : List Effect) (vs : List Visit) : Prop where
  write : ∀ p, (∃ u ∈ us, u.Has (.write p)) ↔ .write p ∈ es
  read : ∀ p, (∃ u ∈ us, u.Has (.read p)) ↔ .read p ∈ es
  show_ : ∀ v, (∃ u ∈ us, u.Shows v) ↔ v ∈ vs

namespace Covers

variable {us us' : List Use} {es es' : List Effect} {vs vs' : List Visit}

theorem nil : Covers [] [] [] := ⟨by simp, by simp, by simp⟩

theorem call (r : String) : Covers [] [.call r] [] := ⟨by simp, by simp, by simp⟩

theorem append (h : Covers us es vs) (h' : Covers us' es' vs') : Covers (us ++ us') (es ++ es') (vs ++ vs') := by
  constructor
  · intro p
    rw [List.mem_append, ← h.write, ← h'.write]
    simp only [List.mem_append, or_and_right, exists_or]
  · intro p
    rw [List.mem_append, ← h.read, ← h'.read]
    simp only [List.mem_append, or_and_right, exists_or]
  · intro v
    rw [List.mem_append, ← h.show_, ← h'.show_]
    simp only [List.mem_append, or_and_right, exists_or]

/-- What is no call. -/
theorem has (h : Covers us es vs) {e : Effect} (he : ∀ r, e ≠ .call r) : (∃ u ∈ us, u.Has e) ↔ e ∈ es := by
  cases e with
  | write p => exact h.write p
  | read p => exact h.read p
  | call r => exact absurd rfl (he r)

/-- The order and number of effects do not matter. -/
theorem congr (h : Covers us es vs) (hes : ∀ e, e ∈ es ↔ e ∈ es') (hvs : ∀ v, v ∈ vs ↔ v ∈ vs') : Covers us es' vs' :=
  ⟨fun p => (h.write p).trans (hes _), fun p => (h.read p).trans (hes _), fun v => (h.show_ v).trans (hvs v)⟩

end Covers

/-! ## Operands -/

mutual

/-- The identifiers of an expression. -/
def Expr.paths : Expr → List Path
  | .identifier hierarchy name => [(hierarchy, name)]
  | .bitSelect target index => target.paths ++ index.paths
  | .rangeSelect target msb lsb => target.paths ++ msb.paths ++ lsb.paths
  | .partSelect target base width => target.paths ++ base.paths ++ width.paths
  | .concatenation parts => pathsAll parts
  | .streamingConcatenation parts sliceSize => pathsAll parts ++ sliceSize.paths
  | .functionCall _ _ arguments => pathsAll arguments
  | .node operands => pathsAll operands

def pathsAll : List Expr → List Path
  | [] => []
  | e :: es => e.paths ++ pathsAll es

end

mutual

theorem Expr.walkNames_eq : ∀ e : Expr, e.walkNames = e.paths.map Prod.snd
  | .identifier _ _ => rfl
  | .bitSelect target index => by simp [Expr.walkNames, Expr.paths, target.walkNames_eq, index.walkNames_eq]
  | .rangeSelect target msb lsb => by
    simp [Expr.walkNames, Expr.paths, target.walkNames_eq, msb.walkNames_eq, lsb.walkNames_eq]
  | .partSelect target base width => by
    simp [Expr.walkNames, Expr.paths, target.walkNames_eq, base.walkNames_eq, width.walkNames_eq]
  | .concatenation parts => by simp [Expr.walkNames, Expr.paths, walkNamesAll_eq parts]
  | .streamingConcatenation parts sliceSize => by
    simp [Expr.walkNames, Expr.paths, walkNamesAll_eq parts, sliceSize.walkNames_eq]
  | .functionCall _ _ arguments => by simp [Expr.walkNames, Expr.paths, walkNamesAll_eq arguments]
  | .node operands => by simp [Expr.walkNames, Expr.paths, walkNamesAll_eq operands]

theorem walkNamesAll_eq : ∀ es : List Expr, walkNamesAll es = (pathsAll es).map Prod.snd
  | [] => rfl
  | e :: es => by simp [walkNamesAll, pathsAll, e.walkNames_eq, walkNamesAll_eq es]

end

mutual

/-- What an evaluation reads. -/
theorem Expr.read_mem_effects (scope : List String) (p : Path) :
    ∀ e : Expr, .read p ∈ e.effects scope ↔ p ∈ e.paths ∧ ¬Hidden scope p
  | .identifier hierarchy name => by
    rw [Expr.effects, Expr.paths, List.mem_singleton]
    by_cases hp : p = (hierarchy, name)
    · subst hp
      split
      · next h => simp [h]
      · next h => simp [h]
    · split <;> simp [hp]
  | .bitSelect target index => by
    simp [Expr.effects, Expr.paths, target.read_mem_effects, index.read_mem_effects, or_and_right]
  | .rangeSelect target msb lsb => by
    simp [Expr.effects, Expr.paths, target.read_mem_effects, msb.read_mem_effects, lsb.read_mem_effects, or_and_right]
  | .partSelect target base width => by
    simp [Expr.effects, Expr.paths, target.read_mem_effects, base.read_mem_effects, width.read_mem_effects,
      or_and_right]
  | .concatenation parts => by simp [Expr.effects, Expr.paths, read_mem_effectsAll scope p parts]
  | .streamingConcatenation parts sliceSize => by
    simp [Expr.effects, Expr.paths, read_mem_effectsAll scope p parts, sliceSize.read_mem_effects, or_and_right]
  | .functionCall name isSystem arguments => by
    cases isSystem <;> simp [Expr.effects, Expr.paths, read_mem_effectsAll scope p arguments]
  | .node operands => by simp [Expr.effects, Expr.paths, read_mem_effectsAll scope p operands]

theorem read_mem_effectsAll (scope : List String) (p : Path) :
    ∀ es : List Expr, .read p ∈ effectsAll scope es ↔ p ∈ pathsAll es ∧ ¬Hidden scope p
  | [] => by simp [effectsAll, pathsAll]
  | e :: es => by
    simp [effectsAll, pathsAll, e.read_mem_effects, read_mem_effectsAll scope p es, or_and_right]

end

mutual

/-- An evaluation writes nothing. -/
theorem Expr.write_notMem_effects (scope : List String) (p : Path) : ∀ e : Expr, .write p ∉ e.effects scope
  | .identifier hierarchy name => by
    rw [Expr.effects]
    split <;> simp
  | .bitSelect target index => by simp [Expr.effects, target.write_notMem_effects, index.write_notMem_effects]
  | .rangeSelect target msb lsb => by
    simp [Expr.effects, target.write_notMem_effects, msb.write_notMem_effects, lsb.write_notMem_effects]
  | .partSelect target base width => by
    simp [Expr.effects, target.write_notMem_effects, base.write_notMem_effects, width.write_notMem_effects]
  | .concatenation parts => by simp [Expr.effects, write_notMem_effectsAll scope p parts]
  | .streamingConcatenation parts sliceSize => by
    simp [Expr.effects, write_notMem_effectsAll scope p parts, sliceSize.write_notMem_effects]
  | .functionCall name isSystem arguments => by
    cases isSystem <;> simp [Expr.effects, write_notMem_effectsAll scope p arguments]
  | .node operands => by simp [Expr.effects, write_notMem_effectsAll scope p operands]

theorem write_notMem_effectsAll (scope : List String) (p : Path) : ∀ es : List Expr, .write p ∉ effectsAll scope es
  | [] => by simp [effectsAll]
  | e :: es => by simp [effectsAll, e.write_notMem_effects, write_notMem_effectsAll scope p es]

end

/-- Paths in a place. -/
def placed (scope : List String) (place : Place) (paths : List Path) : List Use :=
  paths.map fun p => ⟨p, place, decide (Hidden scope p)⟩

theorem exists_placed_has (scope : List String) (place : Place) (paths : List Path) (e : Effect) :
    (∃ u ∈ placed scope place paths, u.Has e) ↔ ∃ p ∈ paths, ¬Hidden scope p ∧
        ((place.writes = true ∧ e = .write p) ∨ (place.reads = true ∧ e = .read p)) := by
  simp [placed, Use.Has]

theorem exists_placed_shows (scope : List String) (place : Place) (paths : List Path) (v : Visit) :
    (∃ u ∈ placed scope place paths, u.Shows v) ↔
      ∃ p ∈ paths, (place.driver = true ∧ v = .driver p.2) ∨ (place.load = true ∧ v = .load p.2) := by
  simp [placed, Use.Shows]

/-- Operands that are evaluated, in a place that the analysis looks at or in one that it does not. -/
theorem covers_operands (place : Place) (hwrites : place.writes = false) (hreads : place.reads = true)
    (hdriver : place.driver = false) (scope : List String) (es : List Expr) :
    Covers (placed scope place (pathsAll es)) (effectsAll scope es) (if place.load then loadsAll es else []) := by
  refine ⟨fun p => ?_, fun p => ?_, fun v => ?_⟩
  · rw [exists_placed_has]
    simp [hwrites, write_notMem_effectsAll]
  · rw [exists_placed_has, read_mem_effectsAll]
    simp [hwrites, hreads]
  · rw [exists_placed_shows]
    cases hload : place.load
    · simp [hdriver]
    · simp [hdriver, loadsAll, walkNamesAll_eq, eq_comm]

/-- Arguments that are not evaluated. -/
theorem covers_idle (scope : List String) (es : List Expr) :
    Covers (placed scope .idle (pathsAll es)) [] (loadsAll es) := by
  refine ⟨fun p => ?_, fun p => ?_, fun v => ?_⟩
  · rw [exists_placed_has]
    simp [Place.writes, Place.reads]
  · rw [exists_placed_has]
    simp [Place.writes, Place.reads]
  · rw [exists_placed_shows]
    simp [Place.driver, Place.load, loadsAll, walkNamesAll_eq, eq_comm]

/-- One operand that is evaluated and that the analysis takes for read. -/
theorem covers_value (scope : List String) (e : Expr) :
    Covers (placed scope .value e.paths) (e.effects scope) e.loads := by
  have h := covers_operands .value rfl rfl rfl scope [e]
  simpa [pathsAll, effectsAll, Place.load, loadsAll, walkNamesAll, Expr.loads] using h

/-- One operand that is evaluated behind the back of the analysis. -/
theorem covers_local (scope : List String) (e : Expr) :
    Covers (placed scope .localValue e.paths) (e.effects scope) [] := by
  have h := covers_operands .localValue rfl rfl rfl scope [e]
  simpa [pathsAll, effectsAll, Place.load] using h

/-! ## Targets -/

/-- A part of a target: the name that is written, below an indexed part select or a streaming concatenation or not, an
index, or what is no target. -/
inductive Part
  | base (path : Path) (sliced : Bool)
  | index (e : Expr)
  | other (e : Expr)

mutual

/-- The parts of a target. -/
def Expr.parts (sliced : Bool) : Expr → List Part
  | .identifier hierarchy name => [.base (hierarchy, name) sliced]
  | .bitSelect target index => target.parts sliced ++ [.index index]
  | .rangeSelect target msb lsb => target.parts sliced ++ [.index msb, .index lsb]
  | .partSelect target base width => target.parts true ++ [.index base, .index width]
  | .concatenation parts => partsAll sliced parts
  | .streamingConcatenation parts sliceSize => partsAll true parts ++ [.index sliceSize]
  | e => [.other e]

def partsAll (sliced : Bool) : List Expr → List Part
  | [] => []
  | e :: es => e.parts sliced ++ partsAll sliced es

end

mutual

theorem Expr.base_mem_parts_true {p : Path} {b : Bool} : ∀ e : Expr, .base p b ∈ e.parts true → b = true
  | .identifier _ _ => by simp [Expr.parts]
  | .bitSelect target _ => by simpa [Expr.parts] using target.base_mem_parts_true
  | .rangeSelect target _ _ => by simpa [Expr.parts] using target.base_mem_parts_true
  | .partSelect target _ _ => by simpa [Expr.parts] using target.base_mem_parts_true
  | .concatenation parts => by simpa [Expr.parts] using base_mem_partsAll_true parts
  | .streamingConcatenation parts _ => by simpa [Expr.parts] using base_mem_partsAll_true parts
  | .functionCall _ _ _ => by simp [Expr.parts]
  | .node _ => by simp [Expr.parts]

theorem base_mem_partsAll_true {p : Path} {b : Bool} : ∀ es : List Expr, .base p b ∈ partsAll true es → b = true
  | [] => by simp [partsAll]
  | e :: es => by
    simp only [partsAll, List.mem_append]
    rintro (h | h)
    · exact e.base_mem_parts_true h
    · exact base_mem_partsAll_true es h

end

mutual

/-- The analysis takes for driven what is not sliced. -/
theorem Expr.mem_driverNames (n : String) :
    ∀ e : Expr, n ∈ e.driverNames ↔ ∃ p, .base p false ∈ e.parts false ∧ p.2 = n
  | .identifier hierarchy name => by simp [Expr.driverNames, Expr.parts, eq_comm]
  | .bitSelect target _ => by simp [Expr.driverNames, Expr.parts, target.mem_driverNames]
  | .rangeSelect target _ _ => by simp [Expr.driverNames, Expr.parts, target.mem_driverNames]
  | .partSelect target _ _ => by
    have hsliced : ∀ p, Part.base p false ∉ target.parts true := fun p h => by
      cases target.base_mem_parts_true h
    simp [Expr.driverNames, Expr.parts, hsliced]
  | .concatenation parts => by simp [Expr.driverNames, Expr.parts, mem_driverNamesAll n parts]
  | .streamingConcatenation parts _ => by
    have hsliced : ∀ p, Part.base p false ∉ partsAll true parts := fun p h => by
      cases base_mem_partsAll_true parts h
    simp [Expr.driverNames, Expr.parts, hsliced]
  | .functionCall _ _ _ => by simp [Expr.driverNames, Expr.parts]
  | .node _ => by simp [Expr.driverNames, Expr.parts]

theorem mem_driverNamesAll (n : String) :
    ∀ es : List Expr, n ∈ driverNamesAll es ↔ ∃ p, .base p false ∈ partsAll false es ∧ p.2 = n
  | [] => by simp [driverNamesAll, partsAll]
  | e :: es => by
    simp [driverNamesAll, partsAll, e.mem_driverNames, mem_driverNamesAll n es, or_and_right, exists_or]

end

mutual

/-- An assignment writes the names of the target. -/
theorem Expr.write_mem_assignEffects (scope : List String) (p : Path) (sliced : Bool) :
    ∀ e : Expr, .write p ∈ e.assignEffects scope ↔ (∃ b, .base p b ∈ e.parts sliced) ∧ ¬Hidden scope p
  | .identifier hierarchy name => by
    rw [Expr.assignEffects, Expr.parts]
    by_cases hp : p = (hierarchy, name)
    · subst hp
      split
      · next h => simp [h]
      · next h => simp [h]
    · split <;> simp [hp]
  | .bitSelect target index => by
    simp [Expr.assignEffects, Expr.parts, target.write_mem_assignEffects scope p sliced, index.write_notMem_effects]
  | .rangeSelect target msb lsb => by
    simp [Expr.assignEffects, Expr.parts, target.write_mem_assignEffects scope p sliced, msb.write_notMem_effects,
      lsb.write_notMem_effects]
  | .partSelect target base width => by
    simp [Expr.assignEffects, Expr.parts, target.write_mem_assignEffects scope p true, base.write_notMem_effects,
      width.write_notMem_effects]
  | .concatenation parts => by
    simp [Expr.assignEffects, Expr.parts, write_mem_assignEffectsAll scope p sliced parts]
  | .streamingConcatenation parts sliceSize => by
    simp [Expr.assignEffects, Expr.parts, write_mem_assignEffectsAll scope p true parts,
      sliceSize.write_notMem_effects]
  | .functionCall _ _ _ => by simp [Expr.assignEffects, Expr.parts]
  | .node _ => by simp [Expr.assignEffects, Expr.parts]

theorem write_mem_assignEffectsAll (scope : List String) (p : Path) (sliced : Bool) :
    ∀ es : List Expr, .write p ∈ assignEffectsAll scope es ↔ (∃ b, .base p b ∈ partsAll sliced es) ∧ ¬Hidden scope p
  | [] => by simp [assignEffectsAll, partsAll]
  | e :: es => by
    simp only [assignEffectsAll, partsAll, List.mem_append, e.write_mem_assignEffects scope p sliced,
      write_mem_assignEffectsAll scope p sliced es, exists_or, or_and_right]

end

mutual

/-- An assignment reads what the indices of the target read. -/
theorem Expr.read_mem_assignEffects (scope : List String) (p : Path) (sliced : Bool) :
    ∀ e : Expr, .read p ∈ e.assignEffects scope ↔ ∃ i, .index i ∈ e.parts sliced ∧ .read p ∈ i.effects scope
  | .identifier hierarchy name => by
    rw [Expr.assignEffects, Expr.parts]
    split <;> simp
  | .bitSelect target index => by
    simp [Expr.assignEffects, Expr.parts, target.read_mem_assignEffects scope p sliced, or_and_right, exists_or]
  | .rangeSelect target msb lsb => by
    simp [Expr.assignEffects, Expr.parts, target.read_mem_assignEffects scope p sliced, or_and_right, exists_or]
  | .partSelect target base width => by
    simp [Expr.assignEffects, Expr.parts, target.read_mem_assignEffects scope p true, or_and_right, exists_or]
  | .concatenation parts => by
    simp [Expr.assignEffects, Expr.parts, read_mem_assignEffectsAll scope p sliced parts]
  | .streamingConcatenation parts sliceSize => by
    simp [Expr.assignEffects, Expr.parts, read_mem_assignEffectsAll scope p true parts, or_and_right, exists_or]
  | .functionCall _ _ _ => by simp [Expr.assignEffects, Expr.parts]
  | .node _ => by simp [Expr.assignEffects, Expr.parts]

theorem read_mem_assignEffectsAll (scope : List String) (p : Path) (sliced : Bool) :
    ∀ es : List Expr, .read p ∈ assignEffectsAll scope es ↔
      ∃ i, .index i ∈ partsAll sliced es ∧ .read p ∈ i.effects scope
  | [] => by simp [assignEffectsAll, partsAll]
  | e :: es => by
    simp only [assignEffectsAll, partsAll, List.mem_append, e.read_mem_assignEffects scope p sliced,
      read_mem_assignEffectsAll scope p sliced es, exists_or, or_and_right]

end

/-- The identifiers of a part. -/
def Part.paths : Part → List Path
  | .base path _ => [path]
  | .index e => e.paths
  | .other e => e.paths

mutual

/-- The identifiers of a target are those of its parts. -/
theorem Expr.paths_eq (sliced : Bool) : ∀ e : Expr, e.paths = (e.parts sliced).flatMap Part.paths
  | .identifier hierarchy name => by simp [Expr.paths, Expr.parts, Part.paths]
  | .bitSelect target index => by simp [Expr.paths, Expr.parts, Part.paths, target.paths_eq sliced]
  | .rangeSelect target msb lsb => by simp [Expr.paths, Expr.parts, Part.paths, target.paths_eq sliced]
  | .partSelect target base width => by simp [Expr.paths, Expr.parts, Part.paths, target.paths_eq true]
  | .concatenation parts => by simp [Expr.paths, Expr.parts, pathsAll_eq sliced parts]
  | .streamingConcatenation parts sliceSize => by simp [Expr.paths, Expr.parts, Part.paths, pathsAll_eq true parts]
  | .functionCall name isSystem arguments => by simp [Expr.parts, Part.paths]
  | .node operands => by simp [Expr.parts, Part.paths]

theorem pathsAll_eq (sliced : Bool) : ∀ es : List Expr, pathsAll es = (partsAll sliced es).flatMap Part.paths
  | [] => rfl
  | e :: es => by simp [pathsAll, partsAll, e.paths_eq sliced, pathsAll_eq sliced es]

end

/-- The places of the parts of a target. -/
abbrev Mode := Part → Place

namespace Mode

/-- The target of an assignment or of an output connection. -/
def assign : Mode
  | .base _ false => .target
  | .base _ true => .sliced
  | .index _ => .index
  | .other _ => .unused

/-- An inout connection. -/
def connectBoth : Mode
  | .base _ false => .targetBoth
  | .base _ true => .slicedBoth
  | .index _ | .other _ => .value

/-- An output argument. -/
def pass : Mode
  | .base _ _ => .output
  | .index _ => .value
  | .other _ => .idle

/-- An inout argument, or a connection to a port that is not known. -/
def passBoth : Mode
  | .base _ _ => .outputBoth
  | .index _ | .other _ => .value

end Mode

/-- The names of a target in their places. -/
def targetUses (scope : List String) (mode : Mode) (e : Expr) : List Use :=
  (e.parts false).flatMap fun part => placed scope (mode part) part.paths

theorem exists_targetUses_has (scope : List String) (mode : Mode) (e : Expr) (eff : Effect) :
    (∃ u ∈ targetUses scope mode e, u.Has eff) ↔ ∃ part ∈ e.parts false, ∃ p ∈ part.paths, ¬Hidden scope p ∧
        (((mode part).writes = true ∧ eff = .write p) ∨ ((mode part).reads = true ∧ eff = .read p)) := by
  constructor
  · rintro ⟨u, hu, hhas⟩
    obtain ⟨part, hpart, hu⟩ := List.mem_flatMap.mp hu
    exact ⟨part, hpart, (exists_placed_has scope _ _ eff).mp ⟨u, hu, hhas⟩⟩
  · rintro ⟨part, hpart, hhas⟩
    obtain ⟨u, hu, hhas⟩ := (exists_placed_has scope _ _ eff).mpr hhas
    exact ⟨u, List.mem_flatMap.mpr ⟨part, hpart, hu⟩, hhas⟩

theorem exists_targetUses_shows (scope : List String) (mode : Mode) (e : Expr) (v : Visit) :
    (∃ u ∈ targetUses scope mode e, u.Shows v) ↔ ∃ part ∈ e.parts false, ∃ p ∈ part.paths,
        ((mode part).driver = true ∧ v = .driver p.2) ∨ ((mode part).load = true ∧ v = .load p.2) := by
  constructor
  · rintro ⟨u, hu, hshows⟩
    obtain ⟨part, hpart, hu⟩ := List.mem_flatMap.mp hu
    exact ⟨part, hpart, (exists_placed_shows scope _ _ v).mp ⟨u, hu, hshows⟩⟩
  · rintro ⟨part, hpart, hshows⟩
    obtain ⟨u, hu, hshows⟩ := (exists_placed_shows scope _ _ v).mpr hshows
    exact ⟨u, List.mem_flatMap.mpr ⟨part, hpart, hu⟩, hshows⟩

/-- Only the base of a part is written. -/
def Part.isBase : Part → Bool
  | .base _ _ => true
  | _ => false

def Part.isIndex : Part → Bool
  | .index _ => true
  | _ => false

/-- The bases that the analysis follows a target to. -/
def Part.isFollowed : Part → Bool
  | .base _ false => true
  | _ => false

/-- In each mode the bases are what is written. -/
theorem write_targetUses {mode : Mode} (hmode : ∀ part, (mode part).writes = part.isBase) (scope : List String)
    (e : Expr) (p : Path) :
    (∃ u ∈ targetUses scope mode e, u.Has (.write p)) ↔ .write p ∈ e.assignEffects scope := by
  rw [exists_targetUses_has, e.write_mem_assignEffects scope p false]
  constructor
  · rintro ⟨part, hpart, p', hp', hhidden, ⟨hwrites, hp⟩ | ⟨-, hp⟩⟩
    · cases hp
      rw [hmode] at hwrites
      cases part with
      | base path b =>
        rw [List.mem_singleton.mp hp'] at hhidden ⊢
        exact ⟨⟨b, hpart⟩, hhidden⟩
      | index e => cases hwrites
      | other e => cases hwrites
    · cases hp
  · rintro ⟨⟨b, hpart⟩, hhidden⟩
    exact ⟨_, hpart, p, List.mem_singleton_self p, hhidden, .inl ⟨hmode _, rfl⟩⟩

/-- Where only the indices are evaluated. -/
theorem read_targetUses_index {mode : Mode} (hmode : ∀ part, (mode part).reads = part.isIndex) (scope : List String)
    (e : Expr) (p : Path) :
    (∃ u ∈ targetUses scope mode e, u.Has (.read p)) ↔ .read p ∈ e.assignEffects scope := by
  rw [exists_targetUses_has, e.read_mem_assignEffects scope p false]
  constructor
  · rintro ⟨part, hpart, p', hp', hhidden, ⟨-, hp⟩ | ⟨hreads, hp⟩⟩
    · cases hp
    · cases hp
      rw [hmode] at hreads
      cases part with
      | base path b => cases hreads
      | index i => exact ⟨i, hpart, (i.read_mem_effects scope p).mpr ⟨hp', hhidden⟩⟩
      | other e => cases hreads
  · rintro ⟨i, hpart, hread⟩
    obtain ⟨hp, hhidden⟩ := (i.read_mem_effects scope p).mp hread
    exact ⟨_, hpart, p, hp, hhidden, .inr ⟨hmode _, rfl⟩⟩

/-- Where the whole expression is evaluated too. -/
theorem read_targetUses_all {mode : Mode} (hmode : ∀ part, (mode part).reads = true) (scope : List String) (e : Expr)
    (p : Path) :
    (∃ u ∈ targetUses scope mode e, u.Has (.read p)) ↔ .read p ∈ e.assignEffects scope ++ e.effects scope := by
  have hall : (∃ u ∈ targetUses scope mode e, u.Has (.read p)) ↔ .read p ∈ e.effects scope := by
    rw [exists_targetUses_has, e.read_mem_effects scope p, e.paths_eq false, List.mem_flatMap]
    constructor
    · rintro ⟨part, hpart, p', hp', hhidden, ⟨-, hp⟩ | ⟨-, hp⟩⟩
      · cases hp
      · cases hp
        exact ⟨⟨part, hpart, hp'⟩, hhidden⟩
    · rintro ⟨⟨part, hpart, hp⟩, hhidden⟩
      exact ⟨part, hpart, p, hp, hhidden, .inr ⟨hmode part, rfl⟩⟩
  rw [hall, List.mem_append]
  refine ⟨Or.inr, fun h => h.elim (fun hassign => ?_) id⟩
  -- the indices are read in the evaluation as well
  obtain ⟨i, hpart, hread⟩ := (e.read_mem_assignEffects scope p false).mp hassign
  obtain ⟨hp, hhidden⟩ := (i.read_mem_effects scope p).mp hread
  rw [e.read_mem_effects scope p, e.paths_eq false]
  exact ⟨List.mem_flatMap.mpr ⟨_, hpart, hp⟩, hhidden⟩

/-- What the analysis takes for driven: the bases that are not sliced, or nothing; and for read: everything or
nothing. -/
theorem show_targetUses (mode : Mode) (walksTarget walksAll : Bool)
    (hdriver : ∀ part, (mode part).driver = (walksTarget && part.isFollowed))
    (hload : ∀ part, (mode part).load = walksAll) (scope : List String) (e : Expr) (v : Visit) :
    (∃ u ∈ targetUses scope mode e, u.Shows v) ↔
      v ∈ (if walksTarget then e.drivers else []) ++ if walksAll then e.loads else [] := by
  have hdrivers : (∃ part ∈ e.parts false, ∃ p ∈ part.paths, (mode part).driver = true ∧ v = .driver p.2) ↔
      v ∈ if walksTarget then e.drivers else [] := by
    simp only [hdriver]
    cases walksTarget with
    | false => simp
    | true =>
      simp only [Bool.true_and, if_pos, Expr.drivers, List.mem_map, e.mem_driverNames]
      constructor
      · rintro ⟨part, hpart, p, hp, hfollowed, rfl⟩
        cases part with
        | base path b =>
          cases b with
          | false =>
            cases List.mem_singleton.mp hp
            exact ⟨_, ⟨_, hpart, rfl⟩, rfl⟩
          | true => cases hfollowed
        | index e => cases hfollowed
        | other e => cases hfollowed
      · rintro ⟨n, ⟨p, hpart, rfl⟩, rfl⟩
        exact ⟨_, hpart, p, List.mem_singleton_self p, rfl, rfl⟩
  have hloads : (∃ part ∈ e.parts false, ∃ p ∈ part.paths, (mode part).load = true ∧ v = .load p.2) ↔
      v ∈ if walksAll then e.loads else [] := by
    simp only [hload]
    cases walksAll with
    | false => simp
    | true =>
      simp only [true_and, if_pos, Expr.loads, e.walkNames_eq, e.paths_eq false, List.mem_map, List.mem_flatMap]
      constructor
      · rintro ⟨part, hpart, p, hp, rfl⟩
        exact ⟨p.2, ⟨p, ⟨part, hpart, hp⟩, rfl⟩, rfl⟩
      · rintro ⟨n, ⟨p, ⟨part, hpart, hp⟩, rfl⟩, rfl⟩
        exact ⟨part, hpart, p, hp, rfl⟩
  rw [exists_targetUses_shows, List.mem_append, ← hdrivers, ← hloads]
  simp only [and_or_left, exists_or]

/-- The target of an assignment or of an output connection. -/
theorem covers_assign (scope : List String) (e : Expr) :
    Covers (targetUses scope .assign e) (e.assignEffects scope) e.drivers where
  write := write_targetUses (by rintro (⟨_, _ | _⟩ | _ | _) <;> rfl) scope e
  read := read_targetUses_index (by rintro (⟨_, _ | _⟩ | _ | _) <;> rfl) scope e
  show_ v := by
    have h := show_targetUses .assign true false
      (by rintro (⟨_, _ | _⟩ | _ | _) <;> rfl) (by rintro (⟨_, _ | _⟩ | _ | _) <;> rfl) scope e v
    simpa using h

/-- What is written and evaluated is written once. -/
theorem write_assign_append_effects (scope : List String) (e : Expr) (p : Path) :
    .write p ∈ e.assignEffects scope ++ e.effects scope ↔ .write p ∈ e.assignEffects scope := by
  simp [e.write_notMem_effects]

/-- An inout connection. -/
theorem covers_connectBoth (scope : List String) (e : Expr) :
    Covers (targetUses scope .connectBoth e) (e.assignEffects scope ++ e.effects scope) (e.drivers ++ e.loads) where
  write p := by
    rw [write_assign_append_effects]
    exact write_targetUses (by rintro (⟨_, _ | _⟩ | _ | _) <;> rfl) scope e p
  read := read_targetUses_all (by rintro (⟨_, _ | _⟩ | _ | _) <;> rfl) scope e
  show_ v := by
    have h := show_targetUses .connectBoth true true
      (by rintro (⟨_, _ | _⟩ | _ | _) <;> rfl) (by rintro (⟨_, _ | _⟩ | _ | _) <;> rfl) scope e v
    simpa using h

/-- An output argument. -/
theorem covers_pass (scope : List String) (e : Expr) :
    Covers (targetUses scope .pass e) (e.assignEffects scope) e.loads where
  write := write_targetUses (by rintro (⟨_, _ | _⟩ | _ | _) <;> rfl) scope e
  read := read_targetUses_index (by rintro (⟨_, _ | _⟩ | _ | _) <;> rfl) scope e
  show_ v := by
    have h := show_targetUses .pass false true
      (by rintro (⟨_, _ | _⟩ | _ | _) <;> rfl) (by rintro (⟨_, _ | _⟩ | _ | _) <;> rfl) scope e v
    simpa using h

/-- An inout argument, or a connection to a port that is not known. -/
theorem covers_passBoth (scope : List String) (e : Expr) :
    Covers (targetUses scope .passBoth e) (e.assignEffects scope ++ e.effects scope) e.loads where
  write p := by
    rw [write_assign_append_effects]
    exact write_targetUses (by rintro (⟨_, _ | _⟩ | _ | _) <;> rfl) scope e p
  read := read_targetUses_all (by rintro (⟨_, _ | _⟩ | _ | _) <;> rfl) scope e
  show_ v := by
    have h := show_targetUses .passBoth false true
      (by rintro (⟨_, _ | _⟩ | _ | _) <;> rfl) (by rintro (⟨_, _ | _⟩ | _ | _) <;> rfl) scope e v
    simpa using h

/-! ## Statements -/

/-- The operands of several expressions. -/
theorem covers_values (scope : List String) (es : List Expr) :
    Covers (placed scope .value (pathsAll es)) (effectsAll scope es) (loadsAll es) :=
  covers_operands .value rfl rfl rfl scope es

/-- An argument of a task. -/
def Expr.passUses (scope : List String) (e : Expr) : PortDirection → List Use
  | .input => placed scope .value e.paths
  | .output => targetUses scope .pass e
  | .inout => targetUses scope .passBoth e

theorem covers_argument (scope : List String) (e : Expr) :
    ∀ direction, Covers (e.passUses scope direction) (e.portEffects scope direction) e.loads
  | .input => covers_value scope e
  | .output => covers_pass scope e
  | .inout => covers_passBoth scope e

/-- The arguments of a task. -/
def argumentUses (scope : List String) : List Port → List Expr → List Use
  | p :: ports, e :: es => e.passUses scope p.direction ++ argumentUses scope ports es
  | _, es => placed scope .idle (pathsAll es)

theorem loadsAll_cons (e : Expr) (es : List Expr) : loadsAll (e :: es) = e.loads ++ loadsAll es := by
  simp [loadsAll, walkNamesAll, Expr.loads]

theorem covers_arguments (scope : List String) (ports : List Port) (es : List Expr) :
    Covers (argumentUses scope ports es) (argumentEffects scope ports es) (loadsAll es) := by
  fun_induction argumentUses scope ports es with
  | case1 p ports e es ih =>
    rw [loadsAll_cons, argumentEffects]
    exact (covers_argument scope e p.direction).append ih
  | case2 ports es h =>
    have hnone : argumentEffects scope ports es = [] := by
      unfold argumentEffects
      split
      · exact absurd rfl (h _ _ _ _ rfl)
      · rfl
    rw [hnone]
    exact covers_idle scope es

/-- The arguments of a system task. -/
def systemTaskUses (scope : List String) (taskName : String) : List Expr → List Use
  | file :: memory :: addresses =>
      placed scope .value file.paths ++
        (if writesMemory taskName then targetUses scope .pass memory else placed scope .value memory.paths) ++
        placed scope .value (pathsAll addresses)
  | es => placed scope .value (pathsAll es)

theorem covers_systemTask (scope : List String) (taskName : String) :
    ∀ es : List Expr, Covers (systemTaskUses scope taskName es) (systemTaskEffects scope taskName es) (loadsAll es)
  | [] => covers_values scope []
  | [file] => covers_values scope [file]
  | file :: memory :: addresses => by
    rw [systemTaskUses, systemTaskEffects, loadsAll_cons, loadsAll_cons, ← List.append_assoc]
    refine ((covers_value scope file).append ?_).append (covers_values scope addresses)
    split
    · exact covers_pass scope memory
    · exact covers_value scope memory

/-- The initial values of the variables of a block. -/
def localUses : List String → List (String × Expr) → List Use
  | _, [] => []
  | scope, x :: xs => placed (x.1 :: scope) .localValue x.2.paths ++ localUses (x.1 :: scope) xs

theorem covers_locals (scope : List String) (xs : List (String × Expr)) :
    Covers (localUses scope xs) (localEffects scope xs) [] := by
  induction xs generalizing scope with
  | nil => exact .nil
  | cons x xs ih => exact (covers_local (x.1 :: scope) x.2).append (ih (x.1 :: scope))

/-- A triggered event. -/
theorem covers_event (scope : List String) (event : String) : Covers (placed scope .event [([], event)])
      (if event ∈ scope then [] else [.read ([], event), .write ([], event)]) [] := by
  refine ⟨fun p => ?_, fun p => ?_, fun v => ?_⟩
  · rw [exists_placed_has]
    by_cases h : event ∈ scope <;> simp [Place.writes, Place.reads, Hidden, h]
  · rw [exists_placed_has]
    by_cases h : event ∈ scope <;> simp [Place.writes, Place.reads, Hidden, h]
  · rw [exists_placed_shows]
    simp [Place.driver, Place.load]

section

variable (tasks : List Routine)

mutual

/-- The names of a statement in their places. -/
def Statement.uses (scope : List String) : Statement → List Use
  | .null => []
  | .blockingAssign lhs rhs => targetUses scope .assign lhs ++ placed scope .value rhs.paths
  | .nonblockingAssign lhs rhs => targetUses scope .assign lhs ++ placed scope .value rhs.paths
  | .seqBlock localVars statements => localUses scope localVars ++ usesAll (blockScope scope localVars) statements
  | .parBlock localVars statements => localUses scope localVars ++ usesAll (blockScope scope localVars) statements
  | .ifStatement condition thenBody elseBody =>
      placed scope .value condition.paths ++ thenBody.uses scope ++ elseBody.uses scope
  | .caseStatement expression items => placed scope .value expression.paths ++ usesItems scope items
  | .forLoop declaresVar initLhs initRhs condition updateLhs updateRhs body =>
      let inner := loopScope scope declaresVar initLhs
      targetUses inner .assign initLhs ++ placed inner .value initRhs.paths ++ placed inner .value condition.paths ++
        targetUses inner .assign updateLhs ++ placed inner .value updateRhs.paths ++ body.uses inner
  | .whileLoop condition body => placed scope .value condition.paths ++ body.uses scope
  | .foreverLoop body => body.uses scope
  | .repeatLoop count body => placed scope .value count.paths ++ body.uses scope
  | .systemTaskCall taskName arguments => systemTaskUses scope taskName arguments
  | .taskEnable taskName arguments =>
      match tasks.find? fun t => t.name == taskName with
      | some task => argumentUses scope task.ports arguments
      | none => placed scope .idle (pathsAll arguments)
  | .waitStatement condition body => placed scope .value condition.paths ++ body.uses scope
  | .delayControl delay body => placed scope .value delay.paths ++ body.uses scope
  | .eventControl events body => placed scope .value (pathsAll events) ++ body.uses scope
  | .disableStatement => []
  | .eventTrigger event => placed scope .event [([], event)]

def CaseItem.uses (scope : List String) : CaseItem → List Use
  | .mk values body => placed scope .value (pathsAll values) ++ body.uses scope

def usesAll (scope : List String) : List Statement → List Use
  | [] => []
  | s :: ss => s.uses scope ++ usesAll scope ss

def usesItems (scope : List String) : List CaseItem → List Use
  | [] => []
  | item :: items => item.uses scope ++ usesItems scope items

end

mutual

/-- The names of a statement tell what its execution does and what the analysis finds. -/
theorem Statement.covers (scope : List String) :
    ∀ s : Statement, Covers (s.uses tasks scope) (s.effects tasks scope) s.visits
  | .null => .nil
  | .blockingAssign lhs rhs => (covers_assign scope lhs).append (covers_value scope rhs)
  | .nonblockingAssign lhs rhs => (covers_assign scope lhs).append (covers_value scope rhs)
  | .seqBlock localVars statements => (covers_locals scope localVars).append (coversAll _ statements)
  | .parBlock localVars statements => (covers_locals scope localVars).append (coversAll _ statements)
  | .ifStatement condition thenBody elseBody =>
    ((covers_value scope condition).append (thenBody.covers scope)).append (elseBody.covers scope)
  | .caseStatement expression items => (covers_value scope expression).append (coversItems scope items)
  | .forLoop declaresVar initLhs initRhs condition updateLhs updateRhs body => by
    have hinner := fun scope => (covers_assign scope initLhs).append (covers_value scope initRhs)
    have hupdate := fun scope => ((hinner scope).append (covers_value scope condition)).append
      (covers_assign scope updateLhs)
    exact ((hupdate _).append (covers_value _ updateRhs)).append (body.covers _)
  | .whileLoop condition body => (covers_value scope condition).append (body.covers scope)
  | .foreverLoop body => body.covers scope
  | .repeatLoop count body => (covers_value scope count).append (body.covers scope)
  | .systemTaskCall taskName arguments => covers_systemTask scope taskName arguments
  | .taskEnable taskName arguments => by
    rw [Statement.uses, Statement.effects, Statement.visits]
    cases tasks.find? fun t => t.name == taskName with
    | some task =>
      -- the call itself is no matter of names
      have h := (covers_arguments scope task.ports arguments).append (.call taskName)
      simpa using h
    | none => exact covers_idle scope arguments
  | .waitStatement condition body => (covers_value scope condition).append (body.covers scope)
  | .delayControl delay body => (covers_value scope delay).append (body.covers scope)
  | .eventControl events body => (covers_values scope events).append (body.covers scope)
  | .disableStatement => .nil
  | .eventTrigger event => covers_event scope event

theorem CaseItem.covers (scope : List String) :
    ∀ item : CaseItem, Covers (item.uses tasks scope) (item.effects tasks scope) item.visits
  | .mk values body => (covers_values scope values).append (body.covers scope)

theorem coversAll (scope : List String) :
    ∀ ss : List Statement, Covers (usesAll tasks scope ss) (statementEffects tasks scope ss) (visitsAll ss)
  | [] => .nil
  | s :: ss => (s.covers scope).append (coversAll scope ss)

theorem coversItems (scope : List String) :
    ∀ items : List CaseItem, Covers (usesItems tasks scope items) (itemEffects tasks scope items) (visitsItems items)
  | [] => .nil
  | item :: items => (item.covers scope).append (coversItems scope items)

end

end

/-! ## Sources -/

/-- The names of a port connection in their places. -/
def PortConnection.uses (d : Design) (scope : List String) (inst : Instance) (conn : PortConnection) (i : Nat) :
    List Use :=
  match conn.expression with
  | none => []
  | some e =>
      match (resolvedPort d inst conn i).map Port.direction with
      | some .output => targetUses scope .assign e
      | some .input => placed scope .value e.paths
      | some .inout => targetUses scope .connectBoth e
      | none => targetUses scope .passBoth e

theorem PortConnection.covers (d : Design) (scope : List String) (inst : Instance) (conn : PortConnection) (i : Nat) :
    Covers (conn.uses d scope inst i) (conn.effects d scope inst i) (conn.visits d inst i) := by
  unfold PortConnection.uses PortConnection.effects PortConnection.visits
  cases conn.expression with
  | none => exact .nil
  | some e =>
    cases (resolvedPort d inst conn i).map Port.direction with
    | none => exact covers_passBoth scope e
    | some direction =>
      cases direction with
      | input => exact covers_value scope e
      | output => exact covers_assign scope e
      | inout => exact covers_connectBoth scope e

/-- The names of a source in their places. -/
def Source.uses (d : Design) (tasks : List Routine) (scope : List String) : Source → List Use
  | .continuousAssign lhs rhs => targetUses scope .assign lhs ++ placed scope .value rhs.paths
  | .alwaysBlock sensitivityList body => placed scope .value (pathsAll sensitivityList) ++ body.uses tasks scope
  | .initialBlock body => body.uses tasks scope
  | .instantiation inst => inst.portConnections.zipIdx.flatMap fun conn => conn.1.uses d scope inst conn.2

theorem Source.covers (d : Design) (tasks : List Routine) (scope : List String) :
    ∀ s : Source, Covers (s.uses d tasks scope) (s.effects d tasks scope) (s.visits d)
  | .continuousAssign lhs rhs => (covers_assign scope lhs).append (covers_value scope rhs)
  | .alwaysBlock sensitivityList body => (covers_values scope sensitivityList).append (body.covers tasks scope)
  | .initialBlock body => body.covers tasks scope
  | .instantiation inst => by
    rw [Source.uses, Source.effects, Source.visits]
    induction inst.portConnections.zipIdx with
    | nil => exact .nil
    | cons conn conns ih => exact (conn.1.covers d scope inst conn.2).append ih

end Veriforge.Analysis

import Mathlib.Data.List.Dedup
import Veriforge.Exec.Executor

/-! # The latch check

`_check_latch_inferred` (`analysis/lint.py`) looks at each `if` and `case` of a combinational block by itself. Beside it
stands what the check is for: whether some path through the block assigns a signal that another path leaves alone. -/

namespace Veriforge.Lint

/-! ## The check -/

/-- `LintCode` -/
inductive LintCode
  | undriven | unused | multiDriven | latchInferred | widthMismatch | mixedBlocking | mixedNonblocking
  | unconnectedPort | inputInit
  deriving DecidableEq

/-- `LintWarning` -/
structure LintWarning where
  code : LintCode
  message : String
  moduleName : String
  signal : Option String := none
  instanceName : Option String := none

/-- `CaseItem.body` -/
def itemBody : CaseItem → Option Stmt
  | .mk _ _ body => body

mutual

/-- `_walk_statements`: the statements visited, in order. -/
def walkStatements : Stmt → List Stmt
  | .seqBlock name ss => .seqBlock name ss :: walkAll ss
  | .ifStatement c thenBody elseBody => .ifStatement c thenBody elseBody :: (walkBody thenBody ++ walkBody elseBody)
  | .caseStatement ct e items => .caseStatement ct e items :: walkItems items
  | .forLoop i c u body v => .forLoop i c u body v :: walkBody body
  | .whileLoop c body => .whileLoop c body :: walkBody body
  | .repeatLoop c body => .repeatLoop c body :: walkBody body
  | .foreverLoop body => .foreverLoop body :: walkBody body
  | stmt => [stmt]

/-- An absent body is not visited. -/
def walkBody : Option Stmt → List Stmt
  | none => []
  | some stmt => walkStatements stmt

def walkAll : List Stmt → List Stmt
  | [] => []
  | s :: ss => walkStatements s ++ walkAll ss

def walkItems : List CaseItem → List Stmt
  | [] => []
  | .mk _ _ body :: items => walkBody body ++ walkItems items

end

/-- The name that an assignment to an identifier adds. -/
def target : Stmt → Option String
  | .blockingAssign ⟨.ident _ name, _⟩ | .nonblockingAssign ⟨.ident _ name, _⟩ => some name
  | _ => none

/-- `_collect_assigned_targets`, a set as the list of what is added to it. -/
def collectAssignedTargets (stmt : Option Stmt) : List String := (walkBody stmt).filterMap target

/-- `sorted` of a set. -/
def sortedSet (names : List String) : List String := names.dedup.mergeSort (· ≤ ·)

/-- A warning of the check about one signal. -/
def latchWarning (modName message sig : String) : LintWarning where
  code := .latchInferred
  message := message
  moduleName := modName
  signal := some sig

/-- `_check` on one visited statement. -/
def checkStatement (modName : String) : Stmt → List LintWarning
  | .ifStatement _ thenBody none =>
      (sortedSet (collectAssignedTargets thenBody)).map fun sig =>
        latchWarning modName s!"Incomplete if (no else) — '{sig}' may infer a latch" sig
  | .ifStatement _ thenBody (some elseBody) =>
      let thenTargets := collectAssignedTargets thenBody
      let elseTargets := collectAssignedTargets (some elseBody)
      let onlyThen := thenTargets.filter (!elseTargets.contains ·)
      let onlyElse := elseTargets.filter (!thenTargets.contains ·)
      (sortedSet (onlyThen ++ onlyElse)).map fun sig =>
        latchWarning modName s!"Not all paths assign '{sig}' — may infer a latch" sig
  | .caseStatement _ _ items =>
      if items.any CaseItem.isDefault then []
      else
        (sortedSet (items.flatMap fun item => collectAssignedTargets (itemBody item))).map fun sig =>
          latchWarning modName s!"Case without default — '{sig}' may infer a latch" sig
  | _ => []

/-- `_check_latch_inferred` -/
def checkLatchInferred (body : Option Stmt) (modName : String) : List LintWarning :=
  (walkBody body).flatMap (checkStatement modName)

/-- `LATCH_INFERRED` is reported for a signal. -/
def Reported (body : Option Stmt) (modName s : String) : Prop :=
  ∃ w ∈ checkLatchInferred body modName, w.code = .latchInferred ∧ w.signal = some s

/-! ## Paths -/

mutual

/-- The paths through a statement, each as the signals it assigns. Every branch can be taken, and a case without
default can match no item. -/
def paths : Stmt → List (List String)
  | .blockingAssign a => [(target (.blockingAssign a)).toList]
  | .seqBlock _ ss => pathsAll ss
  | .ifStatement _ thenBody elseBody => pathsBody thenBody ++ pathsBody elseBody
  | .caseStatement _ _ items => pathsItems items ++ if items.any CaseItem.isDefault then [] else [[]]
  | _ => [[]]

def pathsBody : Option Stmt → List (List String)
  | none => [[]]
  | some stmt => paths stmt

def pathsAll : List Stmt → List (List String)
  | [] => [[]]
  | s :: ss => (paths s).flatMap fun p => (pathsAll ss).map (p ++ ·)

def pathsItems : List CaseItem → List (List String)
  | [] => []
  | .mk _ _ body :: items => pathsBody body ++ pathsItems items

end

/-- Some path assigns the signal, and some path assigns it nowhere. -/
def Latch (body : Stmt) (s : String) : Prop := (∃ p ∈ paths body, s ∈ p) ∧ ∃ p ∈ paths body, s ∉ p

/-! ## Branches -/

/-- `if` and `case` -/
def isBranching : Stmt → Bool
  | .ifStatement _ _ _ | .caseStatement _ _ _ => true
  | _ => false

/-- The branches of an `if` or a `case`, with the empty ones that are not written. -/
def branches : Stmt → List (Option Stmt)
  | .ifStatement _ thenBody elseBody => [thenBody, elseBody]
  | .caseStatement _ _ items => items.map itemBody ++ if items.any CaseItem.isDefault then [] else [none]
  | _ => []

/-- A case with a default, which the check passes over. -/
def isDefaultedCase : Stmt → Bool
  | .caseStatement _ _ items => items.any CaseItem.isDefault
  | _ => false

/-- Begin/end, `if`, `case` and blocking assignments to whole signals. -/
inductive Plain : Stmt → Prop
  | assign {name : String} {rhs : Expr} : Plain (.blockingAssign ⟨.ident [] name, rhs⟩)
  | seq {name : Option String} {ss : List Stmt} (h : ∀ u ∈ ss, Plain u) : Plain (.seqBlock name ss)
  | branch {c : Stmt} (hc : isBranching c = true) (h : ∀ u, some u ∈ branches c → Plain u) : Plain c

/-- An assignment to the signal stands on some of the branches and on some not. -/
def Uneven (s : String) (c : Stmt) : Prop :=
  (∃ b ∈ branches c, s ∈ collectAssignedTargets b) ∧ ∃ b ∈ branches c, s ∉ collectAssignedTargets b

/-- The statement assigns the signal whichever branches are taken. -/
inductive Definite (s : String) : Stmt → Prop
  | assign {rhs : Expr} : Definite s (.blockingAssign ⟨.ident [] s, rhs⟩)
  | seq {name : Option String} {ss : List Stmt} {u : Stmt} (hu : u ∈ ss) (h : Definite s u) :
      Definite s (.seqBlock name ss)
  | branch {c : Stmt} (hc : isBranching c = true) (hwritten : none ∉ branches c)
      (h : ∀ u, some u ∈ branches c → Definite s u) : Definite s c

/-- The statement has an uneven one in it that no definite assignment stands beside, in any of the blocks around it. -/
inductive Exposed (s : String) : Stmt → Prop
  | here {c : Stmt} (h : Uneven s c) : Exposed s c
  | seq {name : Option String} {ss : List Stmt} {u : Stmt} (hbeside : ∀ v ∈ ss, ¬Definite s v) (hu : u ∈ ss)
      (h : Exposed s u) : Exposed s (.seqBlock name ss)
  | branch {c u : Stmt} (hu : some u ∈ branches c) (h : Exposed s u) : Exposed s c

/-- An uneven statement is exposed, but only cases with a default are uneven. -/
def Missed (body : Stmt) (s : String) : Prop :=
  Exposed s body ∧ ∀ c ∈ walkStatements body, Uneven s c → isDefaultedCase c = true

/-- An `if`, or a case without default, is uneven, but definite assignments stand beside all that are. -/
def Spurious (body : Stmt) (s : String) : Prop :=
  (∃ c ∈ walkStatements body, Uneven s c ∧ isDefaultedCase c = false) ∧ ¬Exposed s body

/-! ## What is visited -/

variable {s : String}

theorem mem_sortedSet {names : List String} : s ∈ sortedSet names ↔ s ∈ names := by
  rw [sortedSet, List.mem_mergeSort, List.mem_dedup]

theorem mem_walkAll {c : Stmt} {ss : List Stmt} : c ∈ walkAll ss ↔ ∃ u ∈ ss, c ∈ walkStatements u := by
  induction ss with
  | nil => simp [walkAll]
  | cons u us ih => simp [walkAll, ih]

theorem mem_walkItems {c : Stmt} {items : List CaseItem} :
    c ∈ walkItems items ↔ ∃ item ∈ items, c ∈ walkBody (itemBody item) := by
  induction items with
  | nil => simp [walkItems]
  | cons item items ih =>
    obtain ⟨d, vs, body⟩ := item
    simp [walkItems, itemBody, ih]

/-- A branching statement is visited before its branches. -/
theorem mem_walkStatements_of_isBranching {c d : Stmt} (hc : isBranching c = true) :
    d ∈ walkStatements c ↔ d = c ∨ ∃ b ∈ branches c, d ∈ walkBody b := by
  unfold isBranching at hc
  split at hc
  · simp [walkStatements, branches]
  · next items =>
    rw [walkStatements, List.mem_cons, mem_walkItems, branches]
    by_cases hdefault : items.any CaseItem.isDefault = true
    · simp [hdefault]
    · simp [hdefault, walkBody]
  · cases hc

theorem mem_collectAssignedTargets {b : Option Stmt} :
    s ∈ collectAssignedTargets b ↔ ∃ c ∈ walkBody b, target c = some s := List.mem_filterMap

theorem not_mem_collectAssignedTargets_none : s ∉ collectAssignedTargets none := List.not_mem_nil

theorem mem_collectAssignedTargets_seq {name : Option String} {ss : List Stmt} :
    s ∈ collectAssignedTargets (some (.seqBlock name ss)) ↔ ∃ u ∈ ss, s ∈ collectAssignedTargets (some u) := by
  simp only [mem_collectAssignedTargets, walkBody, walkStatements, List.mem_cons, mem_walkAll]
  constructor
  · rintro ⟨c, rfl | ⟨u, hu, hc⟩, htarget⟩
    · simp [target] at htarget
    · exact ⟨u, hu, c, hc, htarget⟩
  · rintro ⟨u, hu, c, hc, htarget⟩
    exact ⟨c, Or.inr ⟨u, hu, hc⟩, htarget⟩

theorem mem_collectAssignedTargets_branch {c : Stmt} (hc : isBranching c = true) :
    s ∈ collectAssignedTargets (some c) ↔ ∃ b ∈ branches c, s ∈ collectAssignedTargets b := by
  have htarget : target c ≠ some s := by
    unfold isBranching at hc
    split at hc
    · simp [target]
    · simp [target]
    · cases hc
  simp only [mem_collectAssignedTargets, walkBody, mem_walkStatements_of_isBranching hc]
  constructor
  · rintro ⟨d, rfl | ⟨b, hb, hd⟩, hs⟩
    · exact absurd hs htarget
    · exact ⟨b, hb, d, hd, hs⟩
  · rintro ⟨b, hb, d, hd, hs⟩
    exact ⟨d, Or.inr ⟨b, hb, hd⟩, hs⟩

/-- The check on one statement warns of the signals it is uneven for, a case with default apart. -/
theorem mem_checkStatement (modName : String) (c : Stmt) :
    (∃ w ∈ checkStatement modName c, w.code = .latchInferred ∧ w.signal = some s) ↔
      Uneven s c ∧ isDefaultedCase c = false := by
  unfold checkStatement
  split
  · simp [latchWarning, mem_sortedSet, Uneven, branches, isDefaultedCase, not_mem_collectAssignedTargets_none]
  · next thenBody elseBody =>
    simp only [latchWarning, List.mem_map, mem_sortedSet, List.mem_append, List.mem_filter, Uneven, branches,
      isDefaultedCase, List.mem_cons, List.not_mem_nil, or_false, exists_eq_or_imp, exists_eq_left, and_true]
    by_cases hthen : s ∈ collectAssignedTargets thenBody <;>
      by_cases helse : s ∈ collectAssignedTargets (some elseBody) <;> simp [hthen, helse]
  · next items =>
    by_cases hdefault : items.any CaseItem.isDefault = true
    · simp [hdefault, isDefaultedCase]
    · simp [hdefault, isDefaultedCase, latchWarning, mem_sortedSet, Uneven, branches,
        not_mem_collectAssignedTargets_none]
  · next hif helse hcase =>
    have hbranches : branches c = [] := by
      unfold branches
      split
      · next elseBody =>
        cases elseBody with
        | none => exact (hif _ _ rfl).elim
        | some elseBody => exact (helse _ _ _ rfl).elim
      · exact (hcase _ _ _ rfl).elim
      · rfl
    simp [Uneven, hbranches]

theorem reported_iff (body : Stmt) (modName : String) :
    Reported (some body) modName s ↔ ∃ c ∈ walkStatements body, Uneven s c ∧ isDefaultedCase c = false := by
  unfold Reported checkLatchInferred walkBody
  simp only [List.mem_flatMap, ← mem_checkStatement modName]
  constructor
  · rintro ⟨w, ⟨c, hc, hw⟩, hs⟩
    exact ⟨c, hc, w, hw, hs⟩
  · rintro ⟨c, hc, w, hw, hs⟩
    exact ⟨w, ⟨c, hc, hw⟩, hs⟩

/-! ## What the paths assign -/

theorem branches_ne_nil {c : Stmt} (hc : isBranching c = true) : branches c ≠ [] := by
  unfold isBranching at hc
  split at hc
  · simp [branches]
  · next items =>
    cases items with
    | nil => simp [branches]
    | cons item items => simp [branches]
  · cases hc

theorem isBranching_of_mem_branches {c : Stmt} {b : Option Stmt} (hb : b ∈ branches c) : isBranching c = true := by
  unfold branches at hb
  split at hb
  · rfl
  · rfl
  · cases hb

theorem mem_pathsItems {p : List String} {items : List CaseItem} :
    p ∈ pathsItems items ↔ ∃ item ∈ items, p ∈ pathsBody (itemBody item) := by
  induction items with
  | nil => simp [pathsItems]
  | cons item items ih =>
    obtain ⟨d, vs, body⟩ := item
    simp [pathsItems, itemBody, ih]

/-- A path through a branching statement is one through a branch of it. -/
theorem mem_paths_of_isBranching {c : Stmt} {p : List String} (hc : isBranching c = true) :
    p ∈ paths c ↔ ∃ b ∈ branches c, p ∈ pathsBody b := by
  unfold isBranching at hc
  split at hc
  · simp [paths, branches]
  · next items =>
    rw [paths, List.mem_append, mem_pathsItems, branches]
    by_cases hdefault : items.any CaseItem.isDefault = true
    · simp [hdefault]
    · simp [hdefault, pathsBody]
  · cases hc

theorem mem_pathsAll_cons {p : List String} {u : Stmt} {us : List Stmt} :
    p ∈ pathsAll (u :: us) ↔ ∃ q ∈ paths u, ∃ r ∈ pathsAll us, q ++ r = p := by
  simp [pathsAll]

theorem pathsAll_nonempty {ss : List Stmt} (h : ∀ u ∈ ss, ∃ p, p ∈ paths u) : ∃ p, p ∈ pathsAll ss := by
  induction ss with
  | nil => exact ⟨[], List.mem_singleton_self _⟩
  | cons u us ih =>
    obtain ⟨q, hq⟩ := h u List.mem_cons_self
    obtain ⟨r, hr⟩ := ih fun v hv => h v (List.mem_cons_of_mem _ hv)
    exact ⟨q ++ r, mem_pathsAll_cons.mpr ⟨q, hq, r, hr, rfl⟩⟩

theorem paths_nonempty {t : Stmt} (h : Plain t) : ∃ p, p ∈ paths t := by
  induction h with
  | assign => exact ⟨_, List.mem_singleton_self _⟩
  | seq _ ih => exact pathsAll_nonempty ih
  | branch hc _ ih =>
    obtain ⟨b, hb⟩ := List.exists_mem_of_ne_nil _ (branches_ne_nil hc)
    cases b with
    | none => exact ⟨[], (mem_paths_of_isBranching hc).mpr ⟨none, hb, List.mem_singleton_self _⟩⟩
    | some u =>
      obtain ⟨p, hp⟩ := ih u hb
      exact ⟨p, (mem_paths_of_isBranching hc).mpr ⟨some u, hb, hp⟩⟩

/-- A path of a block assigns what one of its statements assigns on some path. -/
theorem exists_path_all {ss : List Stmt} (h : ∀ u ∈ ss, ∃ p, p ∈ paths u) :
    (∃ p ∈ pathsAll ss, s ∈ p) ↔ ∃ u ∈ ss, ∃ p ∈ paths u, s ∈ p := by
  induction ss with
  | nil => simp [pathsAll]
  | cons u us ih =>
    have hus : ∀ v ∈ us, ∃ p, p ∈ paths v := fun v hv => h v (List.mem_cons_of_mem _ hv)
    simp only [mem_pathsAll_cons, List.mem_cons, exists_eq_or_imp, ← ih hus]
    constructor
    · rintro ⟨-, ⟨q, hq, r, hr, rfl⟩, hs⟩
      rcases List.mem_append.mp hs with hs | hs
      · exact Or.inl ⟨q, hq, hs⟩
      · exact Or.inr ⟨r, hr, hs⟩
    · rintro (⟨q, hq, hs⟩ | ⟨r, hr, hs⟩)
      · obtain ⟨r, hr⟩ := pathsAll_nonempty hus
        exact ⟨q ++ r, ⟨q, hq, r, hr, rfl⟩, List.mem_append_left _ hs⟩
      · obtain ⟨q, hq⟩ := h u List.mem_cons_self
        exact ⟨q ++ r, ⟨q, hq, r, hr, rfl⟩, List.mem_append_right _ hs⟩

/-- A path of a block leaves the signal alone when each of its statements does so on some path. -/
theorem exists_avoiding_all {ss : List Stmt} : (∃ p ∈ pathsAll ss, s ∉ p) ↔ ∀ u ∈ ss, ∃ p ∈ paths u, s ∉ p := by
  induction ss with
  | nil => simp [pathsAll]
  | cons u us ih =>
    simp only [mem_pathsAll_cons, List.forall_mem_cons, ← ih]
    constructor
    · rintro ⟨-, ⟨q, hq, r, hr, rfl⟩, hs⟩
      rw [List.mem_append, not_or] at hs
      exact ⟨⟨q, hq, hs.1⟩, r, hr, hs.2⟩
    · rintro ⟨⟨q, hq, hsq⟩, r, hr, hsr⟩
      exact ⟨q ++ r, ⟨q, hq, r, hr, rfl⟩, by rw [List.mem_append, not_or]; exact ⟨hsq, hsr⟩⟩

theorem paths_assign (name : String) (rhs : Expr) : paths (.blockingAssign ⟨.ident [] name, rhs⟩) = [[name]] := by
  simp [paths, target]

/-- What some path assigns is what is assigned somewhere in the block. -/
theorem exists_path_iff {t : Stmt} (h : Plain t) : (∃ p ∈ paths t, s ∈ p) ↔ s ∈ collectAssignedTargets (some t) := by
  induction h with
  | assign => simp [paths_assign, collectAssignedTargets, walkBody, walkStatements, target]
  | seq h ih =>
    rw [mem_collectAssignedTargets_seq, paths, exists_path_all fun u hu => paths_nonempty (h u hu)]
    exact exists_congr fun u => and_congr_right fun hu => ih u hu
  | @branch c hc _ ih =>
    have hbody : ∀ b, b ∈ branches c → ((∃ p ∈ pathsBody b, s ∈ p) ↔ s ∈ collectAssignedTargets b) := by
      intro b hb
      cases b with
      | none => simp [pathsBody, not_mem_collectAssignedTargets_none]
      | some u => exact ih u hb
    rw [mem_collectAssignedTargets_branch hc]
    constructor
    · rintro ⟨p, hp, hs⟩
      obtain ⟨b, hb, hp⟩ := (mem_paths_of_isBranching hc).mp hp
      exact ⟨b, hb, (hbody b hb).mp ⟨p, hp, hs⟩⟩
    · rintro ⟨b, hb, hs⟩
      obtain ⟨p, hp, hs⟩ := (hbody b hb).mpr hs
      exact ⟨p, (mem_paths_of_isBranching hc).mpr ⟨b, hb, hp⟩, hs⟩

theorem definite_seq_iff {name : Option String} {ss : List Stmt} :
    Definite s (.seqBlock name ss) ↔ ∃ u ∈ ss, Definite s u := by
  constructor
  · intro h
    cases h with
    | seq hu h => exact ⟨_, hu, h⟩
    | branch hc => cases hc
  · rintro ⟨u, hu, h⟩
    exact .seq hu h

theorem definite_branch_iff {c : Stmt} (hc : isBranching c = true) :
    Definite s c ↔ none ∉ branches c ∧ ∀ u, some u ∈ branches c → Definite s u := by
  constructor
  · intro h
    cases h with
    | assign => cases hc
    | seq => cases hc
    | branch _ hwritten h => exact ⟨hwritten, h⟩
  · rintro ⟨hwritten, h⟩
    exact .branch hc hwritten h

/-- Some path leaves a signal alone exactly where no definite assignment of it stands. -/
theorem exists_avoiding_iff {t : Stmt} (h : Plain t) : (∃ p ∈ paths t, s ∉ p) ↔ ¬Definite s t := by
  induction h with
  | @assign name rhs =>
    rw [paths_assign]
    constructor
    · rintro ⟨p, hp, hs⟩ hdefinite
      obtain rfl := List.mem_singleton.mp hp
      cases hdefinite with
      | assign => exact hs (List.mem_singleton_self _)
      | branch hc => cases hc
    · intro hdefinite
      refine ⟨[name], List.mem_singleton_self _, fun hs => hdefinite ?_⟩
      obtain rfl := List.mem_singleton.mp hs
      exact .assign
  | seq h ih =>
    rw [paths, exists_avoiding_all, definite_seq_iff]
    constructor
    · rintro havoid ⟨u, hu, hdefinite⟩
      exact (ih u hu).mp (havoid u hu) hdefinite
    · intro hnone u hu
      exact (ih u hu).mpr fun hdefinite => hnone ⟨u, hu, hdefinite⟩
  | @branch c hc _ ih =>
    rw [definite_branch_iff hc]
    constructor
    · rintro ⟨p, hp, hs⟩ ⟨hwritten, hdefinite⟩
      obtain ⟨b, hb, hp⟩ := (mem_paths_of_isBranching hc).mp hp
      cases b with
      | none => exact hwritten hb
      | some u => exact (ih u hb).mp ⟨p, hp, hs⟩ (hdefinite u hb)
    · intro hnot
      by_cases hwritten : none ∈ branches c
      · exact ⟨[], (mem_paths_of_isBranching hc).mpr ⟨none, hwritten, List.mem_singleton_self _⟩, List.not_mem_nil⟩
      · obtain ⟨u, hu, hdefinite⟩ : ∃ u, some u ∈ branches c ∧ ¬Definite s u := by
          by_contra hall
          exact hnot ⟨hwritten, fun u hu => by_contra fun hu' => hall ⟨u, hu, hu'⟩⟩
        obtain ⟨p, hp, hs⟩ := (ih u hu).mpr hdefinite
        exact ⟨p, (mem_paths_of_isBranching hc).mpr ⟨some u, hu, hp⟩, hs⟩

theorem Definite.mem {t : Stmt} (h : Definite s t) : s ∈ collectAssignedTargets (some t) := by
  induction h with
  | assign => simp [collectAssignedTargets, walkBody, walkStatements, target]
  | seq hu _ ih => exact mem_collectAssignedTargets_seq.mpr ⟨_, hu, ih⟩
  | branch hc hwritten _ ih =>
    obtain ⟨b, hb⟩ := List.exists_mem_of_ne_nil _ (branches_ne_nil hc)
    cases b with
    | none => exact absurd hb hwritten
    | some u => exact (mem_collectAssignedTargets_branch hc).mpr ⟨some u, hb, ih u hb⟩

/-- An uneven statement has a branch without an assignment of the signal. -/
theorem Uneven.not_definite {c : Stmt} (h : Uneven s c) : ¬Definite s c := by
  obtain ⟨-, b, hb, hs⟩ := h
  rw [definite_branch_iff (isBranching_of_mem_branches hb)]
  rintro ⟨hwritten, hdefinite⟩
  cases b with
  | none => exact hwritten hb
  | some u => exact hs (hdefinite u hb).mem

/-- Exposed means assigned somewhere, and not definitely. -/
theorem exposed_iff {t : Stmt} (h : Plain t) : Exposed s t ↔ s ∈ collectAssignedTargets (some t) ∧ ¬Definite s t := by
  constructor
  · clear h
    intro hexposed
    induction hexposed with
    | here h =>
      obtain ⟨b, hb, hs⟩ := h.1
      exact ⟨(mem_collectAssignedTargets_branch (isBranching_of_mem_branches hb)).mpr ⟨b, hb, hs⟩, h.not_definite⟩
    | seq hbeside hu _ ih =>
      refine ⟨mem_collectAssignedTargets_seq.mpr ⟨_, hu, ih.1⟩, fun hdefinite => ?_⟩
      obtain ⟨v, hv, hdefinite⟩ := definite_seq_iff.mp hdefinite
      exact hbeside v hv hdefinite
    | branch hu _ ih =>
      have hc := isBranching_of_mem_branches hu
      refine ⟨(mem_collectAssignedTargets_branch hc).mpr ⟨_, hu, ih.1⟩, fun hdefinite => ?_⟩
      exact ih.2 (((definite_branch_iff hc).mp hdefinite).2 _ hu)
  · rintro ⟨hs, hnot⟩
    induction h with
    | @assign name rhs =>
      have hname : s = name := by
        simpa [collectAssignedTargets, walkBody, walkStatements, target] using hs
      subst hname
      exact absurd Definite.assign hnot
    | seq _ ih =>
      rw [definite_seq_iff] at hnot
      obtain ⟨u, hu, hs⟩ := mem_collectAssignedTargets_seq.mp hs
      have hbeside : ∀ v ∈ _, ¬Definite s v := fun v hv hdefinite => hnot ⟨v, hv, hdefinite⟩
      exact .seq hbeside hu (ih u hu hs (hbeside u hu))
    | @branch c hc _ ih =>
      by_cases huneven : Uneven s c
      · exact .here huneven
      · -- every branch assigns the signal, so all of them are written and one does not do so definitely
        have hall : ∀ b ∈ branches c, s ∈ collectAssignedTargets b := by
          intro b hb
          by_contra hb'
          exact huneven ⟨(mem_collectAssignedTargets_branch hc).mp hs, b, hb, hb'⟩
        have hwritten : none ∉ branches c := fun hnone => not_mem_collectAssignedTargets_none (hall none hnone)
        obtain ⟨u, hu, hdefinite⟩ : ∃ u, some u ∈ branches c ∧ ¬Definite s u := by
          by_contra hnone
          exact hnot ((definite_branch_iff hc).mpr
            ⟨hwritten, fun u hu => by_contra fun hu' => hnone ⟨u, hu, hu'⟩⟩)
        exact .branch hu (ih u hu (hall _ hu) hdefinite)

theorem latch_iff_exposed {t : Stmt} (h : Plain t) : Latch t s ↔ Exposed s t := by
  rw [Latch, exists_path_iff h, exists_avoiding_iff h, exposed_iff h]

/-! ## Exactness -/

/-- The check is exact for a signal of a block where it neither misses an uneven case with default nor counts an uneven
statement beside a definite assignment. -/
theorem reported_iff_latch_iff {body : Stmt} (h : Plain body) (modName : String) :
    (Reported (some body) modName s ↔ Latch body s) ↔ ¬Missed body s ∧ ¬Spurious body s := by
  rw [reported_iff, latch_iff_exposed h, Missed, Spurious]
  have hnone : (∀ c ∈ walkStatements body, Uneven s c → isDefaultedCase c = true) ↔
      ¬∃ c ∈ walkStatements body, Uneven s c ∧ isDefaultedCase c = false := by
    simp [not_and, Bool.not_eq_false]
  rw [hnone]
  by_cases hreported : ∃ c ∈ walkStatements body, Uneven s c ∧ isDefaultedCase c = false <;>
    by_cases hexposed : Exposed s body <;> simp only [hreported, hexposed] <;> decide

/-- `if (sel) y = 1;` with an `else` that assigns nothing. -/
def latchedIf : Stmt :=
  .ifStatement (.ident [] "sel") (some (.blockingAssign ⟨.ident [] "y", .literal (.decimal 1)⟩)) none

theorem plain_latchedIf : Plain latchedIf := by
  refine .branch rfl fun u hu => ?_
  obtain rfl : u = .blockingAssign ⟨.ident [] "y", .literal (.decimal 1)⟩ := by simpa [branches, latchedIf] using hu
  exact .assign

theorem reported_iff_latch_iff_latchedIf :
    (Reported (some latchedIf) "dut" "y" ↔ Latch latchedIf "y") ↔ ¬Missed latchedIf "y" ∧ ¬Spurious latchedIf "y" :=
  reported_iff_latch_iff plain_latchedIf "dut"

/-- `case (sel) 0: y = 1; default: z = 1; endcase` -/
def unevenCase : Stmt :=
  .caseStatement .case (.ident [] "sel")
    [.mk false [.literal (.decimal 0)] (some (.blockingAssign ⟨.ident [] "y", .literal (.decimal 1)⟩)),
      .mk true [] (some (.blockingAssign ⟨.ident [] "z", .literal (.decimal 1)⟩))]

/-- The default leaves `y` alone and nothing is reported. The other way round, `y` has its value before the `if` and is
reported. -/
theorem latch_check_not_exact :
    (Latch unevenCase "y" ∧ ¬Reported (some unevenCase) "dut" "y") ∧
      Reported (some (.seqBlock none [.blockingAssign ⟨.ident [] "y", .literal (.decimal 0)⟩, latchedIf])) "dut" "y" ∧
        ¬Latch (.seqBlock none [.blockingAssign ⟨.ident [] "y", .literal (.decimal 0)⟩, latchedIf]) "y" := by
  refine ⟨⟨⟨?_, ?_⟩, ?_⟩, ?_, ?_⟩
  · exact ⟨["y"], by simp [unevenCase, paths, pathsItems, pathsBody, target], by simp⟩
  · exact ⟨["z"], by simp [unevenCase, paths, pathsItems, pathsBody, target], by decide⟩
  · rw [reported_iff]
    simp [unevenCase, walkStatements, walkItems, walkBody, Uneven, branches, isDefaultedCase, CaseItem.isDefault]
  · rw [reported_iff]
    refine ⟨latchedIf, by simp [walkStatements, walkAll, latchedIf], ⟨?_, ?_⟩, rfl⟩
    · exact ⟨_, List.mem_cons_self, by simp [collectAssignedTargets, walkBody, walkStatements, target]⟩
    · exact ⟨none, by simp [latchedIf, branches], not_mem_collectAssignedTargets_none⟩
  · simp [Latch, paths, pathsAll, pathsBody, latchedIf, target]

end Veriforge.Lint

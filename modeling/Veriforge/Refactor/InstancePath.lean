import Veriforge.Refactor.Collapse

/-! # Paths to instances

`_resolve_instance_path` and `_resolve_pull_up_chain`: a path names a module and then instances, each in the module of
the one before. The first compares names with the last one to see whether it has arrived, the second counts. -/

namespace Veriforge.Refactor

variable {Expr Item : Type}

/-- `[part for part in instance_path.split("/") if part]` -/
def pathParts (path : List Char) : List String := ((path.splitOn '/').filter (!·.isEmpty)).map String.ofList

/-! ## What a path means -/

/-- The number of the instance of this name in a module. -/
def Module.Holds (m : Module Expr Item) (name : String) (k : Nat) : Prop :=
  m.body.instances.findIdx (·.instanceName == name) = k ∧ k < m.body.instances.length

/-- The names lead from a module to an instance: every instance but the last has a module, which holds the next. -/
inductive Leads (design : List (Module Expr Item)) : Module Expr Item → List String → Module Expr Item × Nat → Prop
  | last {m : Module Expr Item} {name : String} {k : Nat} : m.Holds name k → Leads design m [name] (m, k)
  | step {m m' : Module Expr Item} {name : String} {k : Nat} {inst : Instance Expr} {names : List String}
      {r : Module Expr Item × Nat} : m.Holds name k → m.body.instances[k]? = some inst →
      resolvedModule design inst = some m' → Leads design m' names r → Leads design m (name :: names) r

/-- The instance that a path means, as its parent and its number there. -/
def Means (design : List (Module Expr Item)) (path : List Char) (r : Module Expr Item × Nat) : Prop :=
  ∃ top names m, pathParts path = top :: names ∧ getModule design top = some m ∧ Leads design m names r

section Leads

variable {design : List (Module Expr Item)} {m : Module Expr Item} {names : List String} {r r' : Module Expr Item × Nat}

theorem Leads.ne_nil (h : Leads design m names r) : names ≠ [] := by
  cases h <;> exact List.cons_ne_nil _ _

theorem holds_of_getElem? {name : String} {inst : Instance Expr}
    (h : m.body.instances[m.body.instances.findIdx (·.instanceName == name)]? = some inst) :
    m.Holds name (m.body.instances.findIdx (·.instanceName == name)) :=
  ⟨rfl, (List.getElem?_eq_some_iff.mp h).1⟩

theorem Leads.unique (h : Leads design m names r) (h' : Leads design m names r') : r = r' := by
  induction h with
  | last hk =>
    cases h' with
    | last hk' => rw [← hk.1, ← hk'.1]
    | step _ _ _ hrest => exact absurd rfl hrest.ne_nil
  | step hk hinst hm hrest ih =>
    cases h' with
    | last _ => exact absurd rfl hrest.ne_nil
    | step hk' hinst' hm' hrest' =>
      obtain rfl := hk.1.symm.trans hk'.1
      obtain rfl := Option.some.inj (hinst.symm.trans hinst')
      obtain rfl := Option.some.inj (hm.symm.trans hm')
      exact ih hrest'

/-- What leads on leads to each instance on the way. -/
theorem Leads.onTheWay {pre post : List String} (hpre : pre ≠ []) (h : Leads design m (pre ++ post) r) :
    ∃ r', Leads design m pre r' := by
  induction pre generalizing m with
  | nil => exact absurd rfl hpre
  | cons name pre ih =>
    generalize hnames : name :: pre ++ post = names at h
    cases h with
    | last hk =>
      obtain ⟨rfl, hnil⟩ := List.cons.inj hnames
      rw [(List.append_eq_nil_iff.mp hnil).1]
      exact ⟨_, .last hk⟩
    | step hk hinst hm hrest =>
      obtain ⟨rfl, rfl⟩ := List.cons.inj hnames
      by_cases hnil : pre = []
      · rw [hnil]
        exact ⟨_, .last hk⟩
      · obtain ⟨r', hr'⟩ := ih hnil hrest
        exact ⟨r', .step hk hinst hm hr'⟩

/-- A path means one instance. -/
theorem Means.unique {path : List Char} (h : Means design path r) (h' : Means design path r') : r = r' := by
  obtain ⟨top, names, m, hparts, hm, hleads⟩ := h
  obtain ⟨top', names', m', hparts', hm', hleads'⟩ := h'
  obtain ⟨rfl, rfl⟩ := List.cons.inj (hparts.symm.trans hparts')
  obtain rfl := Option.some.inj (hm.symm.trans hm')
  exact hleads.unique hleads'

/-! ## Where the search ends -/

/-- The search ends at the first instance with the last name. -/
theorem resolveInstancePathFrom_iff {last : String} (names : List String) :
    ∀ m : Module Expr Item, resolveInstancePathFrom design last m names = some r ↔
      ∃ pre post, names = pre ++ last :: post ∧ last ∉ pre ∧ Leads design m (pre ++ [last]) r := by
  induction names with
  | nil =>
    intro m
    refine iff_of_false (Option.some_ne_none r).symm ?_
    rintro ⟨pre, post, hnames, -⟩
    exact List.append_ne_nil_of_right_ne_nil _ (List.cons_ne_nil _ _) hnames.symm
  | cons name names ih =>
    intro m
    rw [resolveInstancePathFrom]
    set k := m.body.instances.findIdx (·.instanceName == name) with hk
    by_cases hlt : k < m.body.instances.length
    · have hholds : m.Holds name k := ⟨hk.symm, hlt⟩
      rw [List.getElem?_eq_getElem hlt]
      dsimp only
      by_cases hlast : name = last
      · rw [if_pos hlast]
        constructor
        · rintro ⟨⟩
          exact ⟨[], names, by rw [hlast, List.nil_append], List.not_mem_nil, .last (hlast ▸ hholds)⟩
        · rintro ⟨pre, post, hnames, hpre, hleads⟩
          cases pre with
          | nil => exact congrArg some (Leads.unique (.last (hlast ▸ hholds)) hleads)
          | cons name' pre =>
            rw [List.cons_append, List.cons.injEq] at hnames
            exact absurd (hlast ▸ hnames.1 ▸ List.mem_cons_self) hpre
      · rw [if_neg hlast]
        constructor
        · intro h
          obtain ⟨m', hm', h⟩ := Option.bind_eq_some_iff.mp h
          obtain ⟨pre, post, hnames, hpre, hleads⟩ := (ih m').mp h
          refine ⟨name :: pre, post, by rw [hnames, List.cons_append], ?_, ?_⟩
          · exact fun hmem => (List.mem_cons.mp hmem).elim (fun heq => hlast heq.symm) hpre
          · exact .step hholds (List.getElem?_eq_getElem hlt) hm' hleads
        · rintro ⟨pre, post, hnames, hpre, hleads⟩
          cases pre with
          | nil =>
            rw [List.nil_append, List.cons.injEq] at hnames
            exact absurd hnames.1 hlast
          | cons name' pre =>
            rw [List.cons_append, List.cons.injEq] at hnames
            obtain ⟨rfl, hnames⟩ := hnames
            generalize hway : name :: pre ++ [last] = way at hleads
            cases hleads with
            | last _ =>
              obtain ⟨-, hnil⟩ := List.cons.inj hway
              exact absurd hnil (List.append_ne_nil_of_right_ne_nil _ (List.cons_ne_nil _ _))
            | step hk' hinst hm' hrest =>
              obtain ⟨rfl, rfl⟩ := List.cons.inj hway
              obtain rfl := hk'.1
              rw [List.getElem?_eq_getElem hlt] at hinst
              obtain rfl := Option.some.inj hinst
              rw [hm', Option.bind_some, ih]
              exact ⟨pre, post, hnames, fun hmem => hpre (List.mem_cons_of_mem _ hmem), hrest⟩
    · rw [List.getElem?_eq_none (Nat.le_of_not_lt hlt)]
      refine iff_of_false (Option.some_ne_none r).symm ?_
      rintro ⟨pre, post, hnames, -, hleads⟩
      have hname : ∃ names', pre ++ [last] = name :: names' := by
        cases pre with
        | nil => exact ⟨[], by rw [(List.cons.inj hnames).1, List.nil_append]⟩
        | cons name' pre => exact ⟨pre ++ [last], by rw [(List.cons.inj hnames).1, List.cons_append]⟩
      obtain ⟨names', hnames'⟩ := hname
      rw [hnames'] at hleads
      cases hleads with
      | last hk' => exact hlt (hk ▸ hk'.1 ▸ hk'.2)
      | step hk' _ _ _ => exact hlt (hk ▸ hk'.1 ▸ hk'.2)

end Leads

/-- Where the last name of the path stands earlier on it, at an instance that the path reaches, the whole path leads to
that same instance. -/
def EndsOnce (design : List (Module Expr Item)) (path : List Char) : Prop :=
  ∀ top names last m pre post r, pathParts path = top :: names → names.getLast? = some last →
    getModule design top = some m → names = pre ++ last :: post → last ∉ pre → Leads design m (pre ++ [last]) r →
      Leads design m names r

theorem resolveInstancePath_of_short {path : List Char} (h : (pathParts path).length ≤ 1) :
    resolveInstancePath design path = none := by
  unfold resolveInstancePath
  split
  · rfl
  · rfl
  · next top part parts hparts =>
    rw [pathParts, hparts] at h
    simp at h

theorem resolveInstancePath_of_parts {path : List Char} {top part : String} {parts : List String}
    (h : pathParts path = top :: part :: parts) :
    resolveInstancePath design path = (getModule design top).bind fun m =>
      resolveInstancePathFrom design ((part :: parts).getLast (List.cons_ne_nil part parts)) m (part :: parts) := by
  rw [pathParts] at h
  rw [resolveInstancePath, h]

theorem resolveInstancePath_iff (design : List (Module Expr Item)) (path : List Char) :
    (∀ r, resolveInstancePath design path = some r ↔ Means design path r) ↔ EndsOnce design path := by
  rcases hparts : pathParts path with _ | ⟨top, _ | ⟨part, parts⟩⟩
  · rw [resolveInstancePath_of_short (by rw [hparts]; exact Nat.zero_le 1)]
    refine iff_of_true (fun r => iff_of_false (Option.some_ne_none r).symm ?_) ?_
    · rintro ⟨top, names, m, h, -⟩
      rw [hparts] at h
      cases h
    · intro top names last m pre post r h
      rw [hparts] at h
      cases h
  · rw [resolveInstancePath_of_short (by rw [hparts, List.length_singleton])]
    refine iff_of_true (fun r => iff_of_false (Option.some_ne_none r).symm ?_) ?_
    · rintro ⟨top', names, m, h, -, hleads⟩
      rw [hparts, List.cons.injEq] at h
      exact hleads.ne_nil h.2.symm
    · intro top' names last m pre post r h hlast
      rw [hparts, List.cons.injEq] at h
      rw [← h.2] at hlast
      cases hlast
  · rw [resolveInstancePath_of_parts hparts]
    -- the search ends where the last name first stands
    have hne : part :: parts ≠ [] := List.cons_ne_nil _ _
    have hmeans : ∀ r, Means design path r ↔ ∃ m, getModule design top = some m ∧ Leads design m (part :: parts) r := by
      intro r
      constructor
      · rintro ⟨top', names, m, h, hm, hleads⟩
        rw [hparts, List.cons.injEq] at h
        obtain ⟨rfl, rfl⟩ := h
        exact ⟨m, hm, hleads⟩
      · rintro ⟨m, hm, hleads⟩
        exact ⟨top, part :: parts, m, hparts, hm, hleads⟩
    set last := (part :: parts).getLast hne with hlast
    have hlast? : (part :: parts).getLast? = some last := List.getLast?_eq_some_getLast hne
    constructor
    · intro hlaw top' names last' m pre post r h hlast' hm hsplit hpre hleads
      rw [hparts, List.cons.injEq] at h
      obtain ⟨rfl, rfl⟩ := h
      obtain rfl := Option.some.inj (hlast?.symm.trans hlast')
      have hfound : ((getModule design top).bind fun m => resolveInstancePathFrom design last m (part :: parts)) =
          some r := by
        rw [hm, Option.bind_some, resolveInstancePathFrom_iff]
        exact ⟨pre, post, hsplit, hpre, hleads⟩
      obtain ⟨m', hm', hall⟩ := (hmeans r).mp ((hlaw r).mp hfound)
      obtain rfl := Option.some.inj (hm.symm.trans hm')
      exact hall
    · intro hends r
      rw [hmeans]
      constructor
      · intro h
        obtain ⟨m, hm, h⟩ := Option.bind_eq_some_iff.mp h
        obtain ⟨pre, post, hsplit, hpre, hleads⟩ := (resolveInstancePathFrom_iff _ m).mp h
        exact ⟨m, hm, hends top _ last m pre post r hparts hlast? hm hsplit hpre hleads⟩
      · rintro ⟨m, hm, hall⟩
        obtain ⟨pre, post, hsplit, hpre⟩ := List.eq_append_cons_of_mem (hlast ▸ List.getLast_mem hne)
        have hway : part :: parts = (pre ++ [last]) ++ post := by rw [hsplit, List.append_assoc, List.singleton_append]
        obtain ⟨r', hr'⟩ := (hway ▸ hall).onTheWay (List.append_ne_nil_of_right_ne_nil _ (List.cons_ne_nil _ _))
        have hall' := hends top _ last m pre post r' hparts hlast? hm hsplit hpre hr'
        refine Option.bind_eq_some_iff.mpr ⟨m, hm, ?_⟩
        rw [resolveInstancePathFrom_iff, hall.unique hall']
        exact ⟨pre, post, hsplit, hpre, hr'⟩

/-! ## The refactorings -/

/-- The first loop of `_resolve_pull_up_chain`. -/
def walkFrom (design : List (Module Expr Item)) : Module Expr Item → List String → Option (Module Expr Item)
  | walker, [] => some walker
  | walker, instName :: parts =>
      (walker.body.instances[walker.body.instances.findIdx (·.instanceName == instName)]?).bind fun inst =>
        (resolvedModule design inst).bind fun m => walkFrom design m parts

/-- The second loop of `_resolve_pull_up_chain`: each module, the number of the instance in it, and its module. -/
def chainFrom (design : List (Module Expr Item)) :
    Module Expr Item → List String → Option (List (Module Expr Item × Nat × Module Expr Item))
  | _, [] => some []
  | walker, instName :: parts =>
      let k := walker.body.instances.findIdx (·.instanceName == instName)
      (walker.body.instances[k]?).bind fun inst =>
        (resolvedModule design inst).bind fun m => (chainFrom design m parts).map ((walker, k, m) :: ·)

section Refactorings

variable (quoted : String → String) (S : Syntax Expr Item) (design : List (Module Expr Item))

/-- `_resolve_pull_up_chain` -/
def resolvePullUpChain (instancePath targetParentPath : List Char) :
    Except RefactorDiagnostic (List (Module Expr Item × Nat × Module Expr Item)) :=
  let notFound := blocked "instance-not-found" ("Instance path not found: " ++ String.ofList instancePath ++ ".")
  let instanceParts := pathParts instancePath
  let targetParts := pathParts targetParentPath
  if instanceParts.length < 2 then .error notFound
  else if targetParentPath ≠ [] ∧ (instanceParts.length ≤ targetParts.length ∨
      instanceParts.take targetParts.length ≠ targetParts) then
    .error (blocked "target-parent-not-on-instance-path"
      ("Target parent " ++ quoted (String.ofList targetParentPath) ++ " is not a strict ancestor of selection " ++
        quoted (String.ofList instancePath) ++ "."))
  else
    let startIndex := if targetParentPath ≠ [] then targetParts.length else instanceParts.length - 1
    let chain := (instanceParts.head?.bind (getModule design)).bind fun m =>
      (walkFrom design m ((instanceParts.take startIndex).drop 1)).bind fun walker =>
        chainFrom design walker (instanceParts.drop startIndex)
    match chain with
    | none => .error notFound
    | some chain => .ok chain

/-- `_resolve_selection` of an instance: its parent, its number there, and its module. -/
def resolveSelection (instancePath : List Char) :
    Except RefactorDiagnostic (Module Expr Item × Nat × Module Expr Item) :=
  if instancePath = [] then
    .error (blocked "instance-path-required"
      "Instance and subtree hierarchy boundary selections require instancePath.")
  else
    match resolveInstancePath design instancePath with
    | none =>
        .error (blocked "instance-not-found" ("Instance path not found: " ++ String.ofList instancePath ++ "."))
    | some (parent, k) =>
        match (parent.body.instances[k]?).bind (resolvedModule design) with
        | none =>
            .error (blocked "unresolved-instance-module"
              ("Instance " ++ quoted (String.ofList instancePath) ++ " does not resolve to a module."))
        | some m => .ok (parent, k, m)

/-- The search finds what the path means, and each refactoring works on it: the collapse rewrites its parent, push-down
its module, and pull-up both. A target parent names a module at least. -/
structure ActsOnInstance (path : List Char) : Prop where
  resolve : ∀ r, resolveInstancePath design path = some r ↔ Means design path r
  collapse : ∀ m', previewCollapseHierarchy S design path = .ok m' → ∃ r inst wrapper signalMap, Means design path r ∧
    r.1.body.instances[r.2]? = some inst ∧ resolvedModule design inst = some wrapper ∧
      m' = buildTransformedParent S r.1 r.2 inst wrapper signalMap
  select : ∀ s, resolveSelection quoted design path = .ok s → Means design path (s.1, s.2.1) ∧
    (s.1.body.instances[s.2.1]?).bind (resolvedModule design) = some s.2.2
  pullUp : ∀ s target chain, (target = [] ∨ pathParts target ≠ []) → resolveSelection quoted design path = .ok s →
    resolvePullUpChain quoted design path target = .ok chain → chain.getLast? = some s

variable {quoted S design}

/-- The two loops lead along the path, and the chain ends with the instance that the path means. -/
theorem leads_of_chain {m walker : Module Expr Item} {walked rest : List String}
    {chain : List (Module Expr Item × Nat × Module Expr Item)} (hrest : rest ≠ [])
    (hwalk : walkFrom design m walked = some walker) (hchain : chainFrom design walker rest = some chain) :
    ∃ s, chain.getLast? = some s ∧ Leads design m (walked ++ rest) (s.1, s.2.1) ∧
      (s.1.body.instances[s.2.1]?).bind (resolvedModule design) = some s.2.2 := by
  induction walked generalizing m with
  | nil =>
    obtain rfl := Option.some.inj hwalk
    rw [List.nil_append]
    induction rest generalizing m chain with
    | nil => exact absurd rfl hrest
    | cons name rest ih =>
      rw [chainFrom] at hchain
      obtain ⟨inst, hinst, hchain⟩ := Option.bind_eq_some_iff.mp hchain
      obtain ⟨m', hm', hchain⟩ := Option.bind_eq_some_iff.mp hchain
      obtain ⟨chain', hchain', rfl⟩ := Option.map_eq_some_iff.mp hchain
      have hholds := holds_of_getElem? hinst
      by_cases hnil : rest = []
      · subst hnil
        obtain rfl := Option.some.inj hchain'
        exact ⟨_, rfl, .last hholds, Option.bind_eq_some_iff.mpr ⟨inst, hinst, hm'⟩⟩
      · obtain ⟨s, hs, hleads, hmodule⟩ := ih hnil hchain' rfl
        refine ⟨s, ?_, .step hholds hinst hm' hleads, hmodule⟩
        rw [List.getLast?_cons, hs]
        rfl
  | cons name walked ih =>
    rw [walkFrom] at hwalk
    obtain ⟨inst, hinst, hwalk⟩ := Option.bind_eq_some_iff.mp hwalk
    obtain ⟨m', hm', hwalk⟩ := Option.bind_eq_some_iff.mp hwalk
    obtain ⟨s, hs, hleads, hmodule⟩ := ih hwalk
    exact ⟨s, hs, .step (holds_of_getElem? hinst) hinst hm' hleads, hmodule⟩

/-- Pull-up works on the instance that the path means. -/
theorem means_of_resolvePullUpChain {path target : List Char}
    {chain : List (Module Expr Item × Nat × Module Expr Item)} (htarget : target = [] ∨ pathParts target ≠ [])
    (h : resolvePullUpChain quoted design path target = .ok chain) :
    ∃ s, chain.getLast? = some s ∧ Means design path (s.1, s.2.1) ∧
      (s.1.body.instances[s.2.1]?).bind (resolvedModule design) = some s.2.2 := by
  unfold resolvePullUpChain at h
  dsimp only at h
  split at h
  · cases h
  · next hlength =>
    split at h
    · cases h
    · next hstrict =>
      split at h
      · cases h
      · next chain' hchain =>
        obtain rfl := Except.ok.inj h
        obtain ⟨m, hm, hchain⟩ := Option.bind_eq_some_iff.mp hchain
        obtain ⟨top, htop, hget⟩ := Option.bind_eq_some_iff.mp hm
        obtain ⟨walker, hwalk, hchain⟩ := Option.bind_eq_some_iff.mp hchain
        set parts := pathParts path with hparts
        set start := if target ≠ [] then (pathParts target).length else parts.length - 1 with hstart
        -- the module of the path is not among the instances
        have hbounds : 1 ≤ start ∧ start < parts.length := by
          rw [hstart]
          split
          · next hne =>
            have hpos := List.length_pos_iff.mpr (htarget.resolve_left hne)
            have hlt : ¬ parts.length ≤ (pathParts target).length := fun hle => hstrict ⟨hne, Or.inl hle⟩
            omega
          · omega
        obtain ⟨s, hs, hleads, hmodule⟩ := leads_of_chain (by
          rw [Ne, List.drop_eq_nil_iff]
          omega) hwalk hchain
        refine ⟨s, hs, ⟨top, parts.tail, m, ?_, hget, ?_⟩, hmodule⟩
        · exact (List.cons_head?_tail htop).symm
        · have hjoin : (parts.take start).drop 1 ++ parts.drop start = parts.tail := by
            rw [← List.drop_one]
            conv_rhs => rw [← List.take_append_drop start parts]
            rw [List.drop_append_of_le_length (by rw [List.length_take]; omega)]
          exact hjoin ▸ hleads

/-- Expressions that are names. -/
def nameSyntax : Syntax String (String × String) := ⟨some, Prod.fst, Prod.snd⟩

/-- A module with one instance `u`. -/
def nestedModule (name child : String) : Module String (String × String) :=
  ⟨name, [], [], [], .ofInstances [⟨child, "u", none, false, [], []⟩]⟩

/-- Instances of one name on two levels. -/
def nestedDesign : List (Module String (String × String)) := [nestedModule "m" "n", nestedModule "n" "leaf"]

/-- The search and the refactorings act on the instance that a path means exactly if the last name of the path does not
stand earlier on it, at another instance that the path reaches. -/
theorem actsOnInstance_iff (quoted : String → String) (S : Syntax Expr Item) (design : List (Module Expr Item))
    (path : List Char) : ActsOnInstance quoted S design path ↔ EndsOnce design path := by
  refine ⟨fun h => (resolveInstancePath_iff design path).mp h.resolve, fun hends => ?_⟩
  have hresolve := (resolveInstancePath_iff design path).mpr hends
  have hselect : ∀ s, resolveSelection quoted design path = .ok s → Means design path (s.1, s.2.1) ∧
      (s.1.body.instances[s.2.1]?).bind (resolvedModule design) = some s.2.2 := by
    intro s h
    unfold resolveSelection at h
    split at h
    · cases h
    · split at h
      · cases h
      · next parent k hfound =>
          split at h
          · cases h
          · next m hm =>
              obtain rfl := Except.ok.inj h
              exact ⟨(hresolve _).mp hfound, hm⟩
  refine ⟨hresolve, fun m' h => ?_, hselect, fun s target chain htarget hs hchain => ?_⟩
  · unfold previewCollapseHierarchy at h
    split at h
    · cases h
    · next parent k hfound =>
        split at h
        · cases h
        · next inst hinst =>
            dsimp only at h
            split at h
            · cases h
            · split at h
              · cases h
              · next wrapper hwrapper =>
                  split at h
                  · cases h
                  · split at h
                    · cases h
                    · next signalMap _ =>
                        exact ⟨(parent, k), inst, wrapper, signalMap, (hresolve _).mp hfound, hinst, hwrapper,
                          (Except.ok.inj h).symm⟩
  · obtain ⟨s', hs', hmeans', hmodule'⟩ := means_of_resolvePullUpChain htarget hchain
    obtain ⟨hmeans, hmodule⟩ := hselect s hs
    obtain ⟨parent, k, m⟩ := s
    obtain ⟨parent', k', m'⟩ := s'
    obtain ⟨rfl, rfl⟩ := Prod.mk.inj (hmeans.unique hmeans')
    obtain rfl := Option.some.inj (hmodule.symm.trans hmodule')
    exact hs'

/-- In `m/u/u` the search ends at the instance `u` of `m`: the collapse would rewrite `m`, while the path means the
instance `u` inside it. -/
theorem resolve_repeated :
    ¬ ActsOnInstance id nameSyntax nestedDesign "m/u/u".toList := by
  intro h
  have hfound : resolveInstancePath nestedDesign "m/u/u".toList = some (nestedModule "m" "n", 0) := by decide
  have houter : (nestedModule "m" "n").Holds "u" 0 := ⟨by decide, by decide⟩
  have hinner : (nestedModule "n" "leaf").Holds "u" 0 := ⟨by decide, by decide⟩
  have hmeans : Means nestedDesign "m/u/u".toList (nestedModule "n" "leaf", 0) :=
    ⟨"m", ["u", "u"], nestedModule "m" "n", by decide, by decide, .step houter rfl (by decide) (.last hinner)⟩
  have hwrong := (h.resolve _).mp hfound
  exact absurd (hwrong.unique hmeans) (by decide)

end Refactorings

end Veriforge.Refactor

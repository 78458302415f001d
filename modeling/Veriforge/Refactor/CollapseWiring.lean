import Mathlib.Data.List.Perm.Basic
import Veriforge.Refactor.Wiring

/-! # Collapsing preserves connectivity

What a safe preview has composed, and when the new instance is linked as the child was through the wrapper: if every
class of aliases that the child hangs on has exactly one parent expression, of the shape of the aliases. -/

namespace Veriforge.Refactor

open Graph

variable {Expr Item Bit Formal : Type}

/-! ## What a safe preview has composed -/

section Composed

variable {S : Syntax Expr Item} {design : List (Module Expr Item)} {wrapper : Module Expr Item}

theorem aliasGroups_eq {u : UnionFind String} (h : aliasGroups S wrapper = some u) :
    u = .ofPairs (wrapper.body.continuousAssigns.filterMap (aliasPair S)) := by
  obtain ⟨pairs, hpairs, rfl⟩ := Option.map_eq_some_iff.mp h
  suffices hsame : ∀ (assigns : List Item) pairs, assigns.mapM (aliasPair S) = some pairs →
      pairs = assigns.filterMap (aliasPair S) by rw [hsame _ _ hpairs]
  intro assigns
  induction assigns with
  | nil =>
    intro pairs h
    exact (Option.some.inj h).symm
  | cons a as ih =>
    intro pairs h
    simp only [List.mapM_cons, Option.bind_eq_bind, Option.bind_eq_some_iff, Option.pure_def, Option.some.injEq] at h
    obtain ⟨p, hp, ps, hps, rfl⟩ := h
    rw [List.filterMap_cons_some hp, ih ps hps]

/-- The root of a name decides its class. -/
theorem find_aliasGroups_iff {u : UnionFind String} (h : aliasGroups S wrapper = some u) (a b : String) :
    u.find a = u.find b ↔ Aliased S wrapper a b := by
  rw [aliasGroups_eq h]
  exact UnionFind.find_ofPairs_iff _ a b

/-- A pure wrapper: its assigns and the connections of its child are about aliases of its ports. -/
structure PureWrapper (S : Syntax Expr Item) (wrapper : Module Expr Item) (child : Instance Expr) : Prop where
  assign : ∀ l r, (l, r) ∈ wrapper.body.continuousAssigns.filterMap (aliasPair S) →
    ∃ p ∈ wrapper.ports, Aliased S wrapper p.name l
  connected : child.portConnections ≠ []
  signal : ∀ conn ∈ child.portConnections, ∃ s, conn.expression.bind S.simpleIdentifierName = some s ∧
    ∃ p ∈ wrapper.ports, Aliased S wrapper p.name s

theorem groupContainsAny_ports {u : UnionFind String} (hu : aliasGroups S wrapper = some u) {name : String}
    (h : groupContainsAny u name (wrapper.ports.map (·.name)) = true) :
    ∃ p ∈ wrapper.ports, Aliased S wrapper p.name name := by
  obtain ⟨n, hn, heq⟩ := List.any_eq_true.mp h
  obtain ⟨p, hp, rfl⟩ := List.mem_map.mp hn
  exact ⟨p, hp, (find_aliasGroups_iff hu _ _).mp (beq_iff_eq.mp heq)⟩

theorem isPurePassThrough_pure {child : Instance Expr} (h : isPurePassThrough S wrapper child = true) :
    PureWrapper S wrapper child := by
  unfold isPurePassThrough at h
  split at h
  · cases h
  next aliases haliases =>
  simp only [Bool.and_eq_true, List.all_eq_true, Bool.not_eq_true', List.isEmpty_eq_false_iff] at h
  obtain ⟨⟨⟨-, hassigns⟩, hne⟩, hconns⟩ := h
  refine ⟨fun l r hlr => ?_, hne, fun conn hconn => ?_⟩
  · obtain ⟨a, ha, hpair⟩ := List.mem_filterMap.mp hlr
    obtain ⟨p, hp, hgroup⟩ := (Option.any_eq_true _ _).mp (hassigns a ha)
    obtain rfl := Option.some.inj (hpair.symm.trans hp)
    exact groupContainsAny_ports haliases hgroup
  · obtain ⟨s, hs, hgroup⟩ := (Option.any_eq_true _ _).mp (hconns conn hconn)
    exact ⟨s, hs, groupContainsAny_ports haliases hgroup⟩

theorem classifyWrapperModule_pure (h : (classifyWrapperModule S design (some wrapper)).wrapperClass = .purePassThrough) :
    ∃ child, wrapper.body.instances = [child] ∧ PureWrapper S wrapper child := by
  dsimp only [classifyWrapperModule] at h
  split at h
  · cases h
  split at h
  · cases h
  split at h
  · cases h
  next child rest hinstances =>
  split_ifs at h with hunresolved hpure
  obtain ⟨hrest, hpure⟩ := Bool.and_eq_true_iff.mp hpure
  rw [List.isEmpty_iff.mp hrest] at hinstances
  exact ⟨child, hinstances, isPurePassThrough_pure hpure⟩

theorem zipIdx_flatMap_set {α : Type} (l : List α) (k start : Nat) (a : α) :
    ((l.zipIdx start).flatMap fun x => if x.2 = start + k then [a] else [x.1]) = l.set k a := by
  induction l generalizing k start with
  | nil => rfl
  | cons b l ih =>
    rw [List.zipIdx_cons, List.flatMap_cons]
    cases k with
    | zero =>
      rw [if_pos (Nat.add_zero start).symm, List.set_cons_zero]
      have hrest : ((l.zipIdx (start + 1)).flatMap fun x => if x.2 = start + 0 then [a] else [x.1]) = l := by
        calc _ = (l.zipIdx (start + 1)).flatMap fun x => [x.1] :=
              List.flatMap_congr fun x hx => if_neg fun h => by
                have := List.le_snd_of_mem_zipIdx hx
                omega
          _ = (l.zipIdx (start + 1)).map Prod.fst := (List.map_eq_flatMap).symm
          _ = l := List.zipIdx_map_fst (start + 1) l
      rw [hrest]
      rfl
    | succ k =>
      rw [if_neg (by simp), List.set_cons_succ, ← ih k (start + 1), Nat.add_right_comm start 1 k]
      rfl

/-- The steps of a preview that nothing blocks. -/
theorem previewCollapseHierarchy_ok {path : List Char} {parent parent' : Module Expr Item} {k : Nat}
    {inst : Instance Expr} (h : previewCollapseHierarchy S design path = .ok parent')
    (hpath : resolveInstancePath design path = some (parent, k)) (hinst : parent.body.instances[k]? = some inst)
    (hwrapper : resolvedModule design inst = some wrapper) :
    ∃ child entries aliases, wrapper.body.instances = [child] ∧ PureWrapper S wrapper child ∧
      portEntries wrapper inst.portConnections 0 = .ok entries ∧ aliasGroups S wrapper = some aliases ∧
      parent' = { parent with body := { parent.body with
        instances := parent.body.instances.set k
          (liftedChild S inst (signalMap wrapper (portMap entries) aliases) child) } } := by
  simp only [previewCollapseHierarchy, hpath, hinst, hwrapper] at h
  split_ifs at h with hclass hparameters
  obtain ⟨child, hchild, hpure⟩ := classifyWrapperModule_pure (not_not.mp hclass)
  split at h
  · cases h
  next signals hcompose =>
  simp only [composeParentConnections, bind, Except.bind] at hcompose
  split at hcompose
  · cases hcompose
  next entries hentries =>
  split at hcompose
  · cases hcompose
  next aliases haliases =>
  obtain rfl := Except.ok.inj hcompose
  obtain rfl := Except.ok.inj h
  refine ⟨child, entries, aliases, hchild, hpure, hentries, haliases, ?_⟩
  unfold buildTransformedParent
  rw [hchild, ← zipIdx_flatMap_set _ k 0]
  simp only [List.map_cons, List.map_nil, Nat.zero_add]

end Composed

/-! ## The map of the signals -/

section SignalMap

variable {wrapper : Module Expr Item} {inst : Instance Expr}

theorem mem_portEntries {conns : List (PortConnection Expr)} {index : Nat} {entries : List (String × Expr)}
    (h : portEntries wrapper conns index = .ok entries) (entry : String × Expr) :
    entry ∈ entries ↔ ∃ k conn, conns[k]? = some conn ∧ portEntry wrapper conn (index + k) = .ok entry := by
  induction conns generalizing index entries with
  | nil =>
    cases h
    simp
  | cons conn conns ih =>
    simp only [portEntries, bind, Except.bind] at h
    split at h
    · cases h
    next first hfirst =>
    split at h
    · cases h
    next rest hrest =>
    cases h
    rw [List.mem_cons, ih hrest]
    refine ⟨?_, ?_⟩
    · rintro (rfl | ⟨k, c, hc, he⟩)
      · exact ⟨0, conn, rfl, hfirst⟩
      · exact ⟨k + 1, c, hc, by rwa [Nat.add_assoc, Nat.add_comm 1] at he⟩
    · rintro ⟨k, c, hc, he⟩
      cases k with
      | zero =>
        obtain rfl := Option.some.inj hc
        exact .inl (Except.ok.inj (he.symm.trans hfirst))
      | succ k => exact .inr ⟨k, c, hc, by rwa [Nat.add_assoc, Nat.add_comm 1]⟩

theorem portEntry_ok {conn : PortConnection Expr} {index : Nat} {n : String} {e : Expr} :
    portEntry wrapper conn index = .ok (n, e) ↔ formalName wrapper conn index = some n ∧ conn.expression = some e := by
  unfold portEntry
  split_ifs with hrange
  · have hnone : formalName wrapper conn index = none := by
      simp [formalName, hrange.1, List.getElem?_eq_none hrange.2]
    simp [hnone]
  · split
    · next hn he => simp [hn, he]
    · next hne => exact ⟨fun h => (by cases h), fun h => absurd h.2 (hne n e h.1)⟩

variable {entries : List (String × Expr)} (hentries : portEntries wrapper inst.portConnections 0 = .ok entries)
include hentries

theorem mem_entries_of_attached {n : String} {e : Expr} (h : Attached wrapper inst n e) : (n, e) ∈ entries := by
  obtain ⟨k, conn, p, hconn, hp, rfl, he⟩ := h
  refine (mem_portEntries hentries _).mpr ⟨k, conn, hconn, portEntry_ok.mpr ⟨?_, he⟩⟩
  rw [Nat.zero_add]
  unfold wrapperPort at hp
  unfold formalName
  split_ifs at hp ⊢
  · obtain ⟨n, hn, hp⟩ := Option.bind_eq_some_iff.mp hp
    have hname := List.find?_some hp
    rw [hn, beq_iff_eq.mp hname]
  · rw [hp]
    rfl

theorem attached_of_mem_entries (hports : NamesPorts wrapper inst) {n : String} {e : Expr} (h : (n, e) ∈ entries) :
    Attached wrapper inst n e := by
  obtain ⟨k, conn, hconn, hentry⟩ := (mem_portEntries hentries _).mp h
  obtain ⟨hn, he⟩ := portEntry_ok.mp hentry
  rw [Nat.zero_add] at hn
  suffices hp : ∃ p, wrapperPort wrapper conn k = some p ∧ p.name = n by
    obtain ⟨p, hp, hname⟩ := hp
    exact ⟨k, conn, p, hconn, hp, hname, he⟩
  unfold wrapperPort
  unfold formalName at hn
  split_ifs at hn ⊢ with hnamed
  · have hmem : n ∈ wrapper.ports.map (·.name) := hports conn (List.mem_of_getElem? hconn) hnamed n hn
    obtain ⟨p, hp, rfl⟩ := List.mem_map.mp hmem
    cases hfind : wrapper.ports.find? (·.name == p.name) with
    | none => exact absurd (beq_self_eq_true p.name) (by simpa using List.find?_eq_none.mp hfind p hp)
    | some q =>
      have hname := List.find?_some hfind
      exact ⟨q, by rw [hn]; exact hfind, beq_iff_eq.mp hname⟩
  · exact Option.map_eq_some_iff.mp hn

omit hentries in
theorem mem_foldl_dictSet (d : List (String × Expr)) (entry : String × Expr)
    (h : entry ∈ entries.foldl (fun d e => dictSet e.1 e.2 d) d) : entry ∈ d ∨ entry ∈ entries := by
  induction entries generalizing d with
  | nil => exact .inl h
  | cons e es ih =>
    rcases ih _ h with h | h
    · rcases mem_dictSet h with rfl | h
      · exact .inr List.mem_cons_self
      · exact .inl h
    · exact .inr (List.mem_cons_of_mem e h)

omit hentries in
theorem keys_foldl_dictSet (d : List (String × Expr)) (n : String) :
    n ∈ (entries.foldl (fun d e => dictSet e.1 e.2 d) d).map Prod.fst ↔
      n ∈ d.map Prod.fst ∨ n ∈ entries.map Prod.fst := by
  induction entries generalizing d with
  | nil => simp
  | cons e es ih =>
    rw [List.foldl_cons, ih, keys_dictSet, List.map_cons, List.mem_cons]
    tauto

omit hentries in
theorem distinctKeys_foldl_dictSet (d : List (String × Expr)) (hd : DistinctKeys d) :
    DistinctKeys (entries.foldl (fun d e => dictSet e.1 e.2 d) d) := by
  induction entries generalizing d with
  | nil => exact hd
  | cons e es ih => exact ih _ (hd.set e.1 e.2)

omit hentries in
theorem mem_portMap {entry : String × Expr} (h : entry ∈ portMap entries) : entry ∈ entries :=
  (mem_foldl_dictSet [] entry h).resolve_left List.not_mem_nil

variable {S : Syntax Expr Item} {aliases : UnionFind String} (haliases : aliasGroups S wrapper = some aliases)
include haliases

/-- A declared alias of a connected port is mapped to an expression that an alias of it is connected to. -/
theorem signalMap_of_attached (hports : NamesPorts wrapper inst) {p s : String} {e : Expr}
    (hp : Attached wrapper inst p e) (hs : Aliased S wrapper p s) (hdeclared : s ∈ wrapper.signalNames) :
    ∃ p' e', Attached wrapper inst p' e' ∧ Aliased S wrapper p' s ∧
      signalMap wrapper (portMap entries) aliases s = some e' := by
  have hkey : p ∈ (portMap entries).map Prod.fst :=
    (keys_foldl_dictSet [] p).mpr (.inr (List.mem_map_of_mem (mem_entries_of_attached hentries hp)))
  obtain ⟨entry, hentry, rfl⟩ := List.mem_map.mp hkey
  have hroot : aliases.find s = aliases.find entry.1 := ((find_aliasGroups_iff haliases _ _).mpr hs).symm
  cases hfind : (portMap entries).find? (fun q => aliases.find s == aliases.find q.1) with
  | none => exact absurd (beq_iff_eq.mpr hroot) (by simpa using List.find?_eq_none.mp hfind entry hentry)
  | some q =>
    have hq := List.find?_some hfind
    refine ⟨q.1, q.2, attached_of_mem_entries hentries hports (mem_portMap (List.mem_of_find?_eq_some hfind)),
      (find_aliasGroups_iff haliases _ _).mp (beq_iff_eq.mp hq).symm, ?_⟩
    unfold signalMap mappedParentExpression
    rw [if_pos hdeclared, hfind]
    rfl

omit haliases in
/-- Where no port is connected the map has nothing for a name that is not declared. -/
theorem signalMap_of_undeclared (hports : NamesPorts wrapper inst) {s : String} (hs : s ∉ wrapper.signalNames) :
    signalMap wrapper (portMap entries) aliases s = none := by
  unfold signalMap
  rw [if_neg hs, Option.none_or]
  cases hget : dictGet s (portMap entries) with
  | none => rfl
  | some e =>
    have hdistinct : DistinctKeys (portMap entries) := distinctKeys_foldl_dictSet [] List.nodup_nil
    have hmem := mem_portMap (hdistinct.mem_iff.mpr hget)
    obtain ⟨k, conn, p, -, hp, rfl, -⟩ := attached_of_mem_entries hentries hports hmem
    refine absurd (List.mem_append_left _ (List.mem_append_left _ (List.mem_map_of_mem ?_))) hs
    unfold wrapperPort at hp
    split_ifs at hp
    · obtain ⟨n, -, hp⟩ := Option.bind_eq_some_iff.mp hp
      exact List.mem_of_find?_eq_some hp
    · exact List.mem_of_getElem? hp

omit hentries haliases in
theorem remapConnection_expression {signals : String → Option Expr} {conn : PortConnection Expr} {s : String}
    (hs : conn.expression.bind S.simpleIdentifierName = some s) :
    (remapConnection S signals conn).expression = (signals s).or conn.expression := by
  obtain ⟨e, he, hname⟩ := Option.bind_eq_some_iff.mp hs
  unfold remapConnection
  rw [he, Option.map_some, hname, Option.bind_some]
  cases signals s <;> rfl

end SignalMap

/-! ## What the wrapper passes on -/

section Forward

variable {L : Wiring Expr Item Bit Formal} {parent : Module Expr Item} {k : Nat} {inst child : Instance Expr}
  {wrapper : Module Expr Item}

/-- The expression that an alias is connected to. -/
theorem lifted_expression {entries : List (String × Expr)} {aliases : UnionFind String}
    (hentries : portEntries wrapper inst.portConnections 0 = .ok entries)
    (haliases : aliasGroups L.toSyntax wrapper = some aliases) (hports : NamesPorts wrapper inst)
    (h : Collapsible L parent k inst wrapper child) {conn : PortConnection Expr} (hconn : conn ∈ child.portConnections)
    {s : String} (hs : conn.expression.bind L.simpleIdentifierName = some s) :
    ∃ p e, Attached wrapper inst p e ∧ Aliased L.toSyntax wrapper p s ∧
      (remapConnection L.toSyntax (signalMap wrapper (portMap entries) aliases) conn).expression = some e := by
  obtain ⟨p, e, hp, halias, hdeclared⟩ := h.reached conn hconn s hs
  refine ⟨p, e, hp, halias, ?_⟩
  rw [remapConnection_expression hs]
  by_cases hmem : s ∈ wrapper.signalNames
  · obtain ⟨p', e', hp', halias', hmap⟩ := signalMap_of_attached hentries haliases hports hp halias hmem
    rw [hmap, h.alone p e p' e' hp hp' (.trans _ _ _ halias (.symm _ _ halias'))]
    rfl
  · rw [signalMap_of_undeclared hentries hports hmem, Option.none_or]
    exact hdeclared.resolve_left hmem

variable {signal : String → Nat → Bit} {x : Expr → Nat → Bit} {y : Nat → Formal}

/-- Every alias of a connected port has the bits of the expression. -/
theorem Solves.eq_attached (h : Solves L wrapper inst child signal x y)
    (hshape : ∀ p e s, Attached wrapper inst p e → Aliased L.toSyntax wrapper p s →
      L.shapeOf wrapper s = L.exprShape e)
    {p s : String} {e : Expr} (hp : Attached wrapper inst p e) (hs : Aliased L.toSyntax wrapper p s) :
    ∀ i, i < (L.exprShape e).bits → signal s i = x e i := by
  -- the bits are the same on both sides of an assign between aliases of the port
  have hstep : ∀ {a b}, Aliased L.toSyntax wrapper a b → Aliased L.toSyntax wrapper p a →
      ((∀ i, i < (L.exprShape e).bits → signal a i = x e i) ↔
        ∀ i, i < (L.exprShape e).bits → signal b i = x e i) := by
    intro a b hab
    induction hab with
    | rel l r hpair =>
      intro hpl
      have hpr : Aliased L.toSyntax wrapper p r := .trans _ _ _ hpl (.rel _ _ hpair)
      have hdrives := h.assign l r hpair
      rw [hshape p e l hp hpl, hshape p e r hp hpr, drives_same] at hdrives
      exact forall₂_congr fun i hi => by rw [hdrives i hi]
    | refl => exact fun _ => Iff.rfl
    | symm a b hab ih => exact fun hpb => (ih (.trans _ _ _ hpb (.symm _ _ hab))).symm
    | trans a b c hab _ ih ih' => exact fun hpa => (ih hpa).trans (ih' (.trans _ _ _ hpa hab))
  refine (hstep hs (.refl p)).mp fun i hi => ?_
  obtain ⟨k, conn, port, hconn, hport, rfl, he⟩ := hp
  have hlinks := h.port k conn port e hconn hport he
  rw [hshape port.name e port.name ⟨k, conn, port, hconn, hport, rfl, he⟩ (.refl _), links_same] at hlinks
  exact (hlinks i hi).symm

theorem direct_liftedChild {signals : String → Option Expr} :
    Direct L (liftedChild L.toSyntax inst signals child) x y ↔ ∀ k conn e, child.portConnections[k]? = some conn →
        (remapConnection L.toSyntax signals conn).expression = some e →
          L.linked child.bare (conn.formal k) (L.exprShape e) (x e) (y k) := by
  constructor
  · intro h k conn e hconn he
    refine h k (remapConnection L.toSyntax signals conn) e ?_ he
    show (child.portConnections.map _)[k]? = _
    rw [List.getElem?_map, hconn]
    rfl
  · intro h k conn e hconn he
    have hmap : (child.portConnections.map (remapConnection L.toSyntax signals))[k]? = some conn := hconn
    rw [List.getElem?_map] at hmap
    obtain ⟨c, hc, rfl⟩ := Option.map_eq_some_iff.mp hmap
    exact h k c e hc he

/-- The history of every signal of the wrapper that passes on the expressions. -/
noncomputable def spread (L : Wiring Expr Item Bit Formal) (wrapper : Module Expr Item) (inst : Instance Expr)
    (x : Expr → Nat → Bit) (n : String) : Nat → Bit :=
  open Classical in
  if h : ∃ e p, Attached wrapper inst p e ∧ Aliased L.toSyntax wrapper p n then x h.choose
  else (L.initialOf wrapper n).getD fun _ => L.zero

theorem spread_attached
    (halone : ∀ p e p' e', Attached wrapper inst p e → Attached wrapper inst p' e' →
      Aliased L.toSyntax wrapper p p' → e = e')
    {p n : String} {e : Expr} (hp : Attached wrapper inst p e) (hn : Aliased L.toSyntax wrapper p n) :
    spread L wrapper inst x n = x e := by
  have h : ∃ e p, Attached wrapper inst p e ∧ Aliased L.toSyntax wrapper p n := ⟨e, p, hp, hn⟩
  obtain ⟨p', hp', hn'⟩ := h.choose_spec
  unfold spread
  rw [dif_pos h, halone p' _ p e hp' hp (.trans _ _ _ hn' (.symm _ _ hn))]

theorem spread_idle {n : String} (h : ¬∃ e p, Attached wrapper inst p e ∧ Aliased L.toSyntax wrapper p n) :
    spread L wrapper inst x n = (L.initialOf wrapper n).getD fun _ => L.zero := dif_neg h

theorem spread_solves {entries : List (String × Expr)} {aliases : UnionFind String}
    (hentries : portEntries wrapper inst.portConnections 0 = .ok entries)
    (haliases : aliasGroups L.toSyntax wrapper = some aliases) (hpure : PureWrapper L.toSyntax wrapper child)
    (h : Collapsible L parent k inst wrapper child) (hpass : PassesOn L inst wrapper)
    (hdirect : Direct L (liftedChild L.toSyntax inst (signalMap wrapper (portMap entries) aliases) child) x y) :
    Solves L wrapper inst child (spread L wrapper inst x) x y where
  port k conn p e hconn hp he := by
    have hattached : Attached wrapper inst p.name e := ⟨k, conn, p, hconn, hp, rfl, he⟩
    rw [hpass.shape p.name e p.name hattached (.refl _), links_same, spread_attached h.alone hattached (.refl _)]
    exact fun _ _ => rfl
  assign l r hlr := by
    have hsame : Aliased L.toSyntax wrapper l r := .rel _ _ hlr
    by_cases hl : ∃ e p, Attached wrapper inst p e ∧ Aliased L.toSyntax wrapper p l
    · obtain ⟨e, p, hp, hpl⟩ := hl
      have hpr : Aliased L.toSyntax wrapper p r := .trans _ _ _ hpl hsame
      rw [hpass.shape p e l hp hpl, hpass.shape p e r hp hpr, spread_attached h.alone hp hpl,
        spread_attached h.alone hp hpr, drives_same]
      exact fun _ _ => rfl
    · -- nothing outside is connected to this class, and nothing in it is initialised
      have hr : ¬∃ e p, Attached wrapper inst p e ∧ Aliased L.toSyntax wrapper p r := by
        rintro ⟨e, p, hp, hpr⟩
        exact hl ⟨e, p, hp, .trans _ _ _ hpr (.symm _ _ hsame)⟩
      obtain ⟨port, hport, hportl⟩ := hpure.assign l r hlr
      rw [spread_idle hl, spread_idle hr, hpass.initial port hport l hportl,
        hpass.initial port hport r (.trans _ _ _ hportl hsame)]
      exact drives_zero _ _
  initial n v hv := by
    have hidle : ¬∃ e p, Attached wrapper inst p e ∧ Aliased L.toSyntax wrapper p n := by
      rintro ⟨e, p, hp, hn⟩
      rw [h.undriven p e n hp hn] at hv
      cases hv
    rw [spread_idle hidle, hv]
    exact fun _ _ => rfl
  child j conn s hconn hs := by
    obtain ⟨p, e, hp, halias, he⟩ :=
      lifted_expression hentries haliases hpass.namesPorts h (List.mem_of_getElem? hconn) hs
    rw [hpass.shape p e s hp halias, spread_attached h.alone hp halias]
    exact direct_liftedChild.mp hdirect j conn e hconn he

/-- The child is linked as it was through the wrapper. -/
theorem through_iff_direct {entries : List (String × Expr)} {aliases : UnionFind String}
    (hentries : portEntries wrapper inst.portConnections 0 = .ok entries)
    (haliases : aliasGroups L.toSyntax wrapper = some aliases) (hpure : PureWrapper L.toSyntax wrapper child)
    (h : Collapsible L parent k inst wrapper child) (hpass : PassesOn L inst wrapper) :
    Through L wrapper inst child x y ↔
      Direct L (liftedChild L.toSyntax inst (signalMap wrapper (portMap entries) aliases) child) x y := by
  refine ⟨fun ⟨signal, hsolves⟩ => direct_liftedChild.mpr fun j conn e hconn he => ?_,
    fun hdirect => ⟨_, spread_solves hentries haliases hpure h hpass hdirect⟩⟩
  obtain ⟨s, hs, -⟩ := hpure.signal conn (List.mem_of_getElem? hconn)
  obtain ⟨p, e', hp, halias, he'⟩ :=
    lifted_expression hentries haliases hpass.namesPorts h (List.mem_of_getElem? hconn) hs
  obtain rfl := Option.some.inj (he.symm.trans he')
  have hlinked := hsolves.child j conn s hconn hs
  rw [hpass.shape p e s hp halias] at hlinked
  exact (L.linked_congr _ _ _ _ _ _ (hsolves.eq_attached hpass.shape hp halias)).mp hlinked

end Forward

/-! ## What must hold -/

section Backward

variable {L : Wiring Expr Item Bit Formal} {parent : Module Expr Item} {k : Nat} {inst child newChild : Instance Expr}
  {wrapper : Module Expr Item}

/-- The lowest bit is the same in all aliases. -/
theorem Solves.lsb_aliased {signal : String → Nat → Bit} {x : Expr → Nat → Bit} {y : Nat → Formal}
    (h : Solves L wrapper inst child signal x y) {a b : String} (hab : Aliased L.toSyntax wrapper a b) :
    signal a 0 = signal b 0 := by
  induction hab with
  | rel l r hpair => exact ((h.assign l r hpair).lsb (L.shapeOf_pos _ _) (L.shapeOf_pos _ _)).symm
  | refl => rfl
  | symm _ _ _ ih => exact ih.symm
  | trans _ _ _ _ _ ih ih' => exact ih.trans ih'

/-- It is that of the expression that one of them is connected to. -/
theorem Solves.lsb_attached {signal : String → Nat → Bit} {x : Expr → Nat → Bit} {y : Nat → Formal}
    (h : Solves L wrapper inst child signal x y) {p s : String} {e : Expr} (hp : Attached wrapper inst p e)
    (hs : Aliased L.toSyntax wrapper p s) : signal s 0 = x e 0 := by
  obtain ⟨k, conn, port, hconn, hport, rfl, he⟩ := hp
  rw [← h.lsb_aliased hs]
  exact ((h.port k conn port e hconn hport he).lsb (L.exprShape_pos e) (L.shapeOf_pos _ _)).symm

/-- Lowest bits of the expressions that are chosen freely give histories of the new instance. -/
theorem exists_direct (hobs : Observable L child) {signals : String → Option Expr} (hne : child.portConnections ≠ [])
    (c : Expr → Bit) :
    ∃ y, Direct L (liftedChild L.toSyntax inst signals child) (fun e => bit0 L.zero (c e)) y := by
  obtain ⟨first, rest, hfirst⟩ := List.exists_cons_of_ne_nil hne
  obtain ⟨y₀, -⟩ := hobs.free 0 first ⟨1, false⟩ L.zero (by rw [hfirst]; rfl)
  have hall : ∀ j, ∃ y, ∀ conn e, child.portConnections[j]? = some conn →
      (remapConnection L.toSyntax signals conn).expression = some e →
        L.linked child.bare (conn.formal j) (L.exprShape e) (bit0 L.zero (c e)) y := fun j => by
    cases hj : child.portConnections[j]? with
    | none => exact ⟨y₀, fun conn e hconn => absurd hconn.symm (Option.some_ne_none conn)⟩
    | some conn =>
      cases he : (remapConnection L.toSyntax signals conn).expression with
      | none =>
        refine ⟨y₀, fun conn' e hconn he' => ?_⟩
        obtain rfl := Option.some.inj hconn
        rw [he] at he'
        exact absurd he'.symm (Option.some_ne_none e)
      | some e =>
        obtain ⟨y, hy⟩ := hobs.free j conn (L.exprShape e) (c e) hj
        refine ⟨y, fun conn' e' hconn he' => ?_⟩
        obtain rfl := Option.some.inj hconn
        obtain rfl := Option.some.inj (he.symm.trans he')
        exact hy
  choose y hy using hall
  exact ⟨y, direct_liftedChild.mpr fun j conn e => hy j conn e⟩

/-- The histories of a class of aliases that nothing outside is connected to can be exchanged. -/
theorem Solves.exchange {signal signal' : String → Nat → Bit}
    {x x' : Expr → Nat → Bit} {y y' : Nat → Formal} (h : Solves L wrapper inst child signal x y)
    (h' : Solves L wrapper inst child signal' x' y') {s : String}
    (hidle : ∀ p e, Attached wrapper inst p e → ¬Aliased L.toSyntax wrapper p s) :
    ∃ z : Nat → Formal, Through L wrapper inst child x z ∧
      ∀ j conn, child.portConnections[j]? = some conn → conn.expression.bind L.simpleIdentifierName = some s →
        z j = y' j := by
  classical
  let inClass (j : Nat) : Prop := ∃ conn t, child.portConnections[j]? = some conn ∧
    conn.expression.bind L.simpleIdentifierName = some t ∧ Aliased L.toSyntax wrapper s t
  refine ⟨fun j => if inClass j then y' j else y j,
    ⟨fun n => if Aliased L.toSyntax wrapper s n then signal' n else signal n, ?_⟩, fun j conn hconn hs => ?_⟩
  · refine ⟨fun j conn p e hconn hp he => ?_, fun l r hlr => ?_, fun n v hv => ?_, fun j conn t hconn ht => ?_⟩
    · have hs : ¬Aliased L.toSyntax wrapper s p.name := fun hs =>
        hidle p.name e ⟨j, conn, p, hconn, hp, rfl, he⟩ (.symm _ _ hs)
      rw [if_neg hs]
      exact h.port j conn p e hconn hp he
    · have hsame : Aliased L.toSyntax wrapper l r := .rel _ _ hlr
      have hiff : Aliased L.toSyntax wrapper s l ↔ Aliased L.toSyntax wrapper s r :=
        ⟨fun hl => .trans _ _ _ hl hsame, fun hr => .trans _ _ _ hr (.symm _ _ hsame)⟩
      simp only [hiff]
      split_ifs
      · exact h'.assign l r hlr
      · exact h.assign l r hlr
    · split_ifs
      · exact h'.initial n v hv
      · exact h.initial n v hv
    · by_cases hst : Aliased L.toSyntax wrapper s t
      · rw [if_pos hst, if_pos ⟨conn, t, hconn, ht, hst⟩]
        exact h'.child j conn t hconn ht
      · have hout : ¬inClass j := by
          rintro ⟨conn', t', hconn', ht', hst'⟩
          obtain rfl := Option.some.inj (hconn.symm.trans hconn')
          obtain rfl := Option.some.inj (ht.symm.trans ht')
          exact hst hst'
        rw [if_neg hst, if_neg hout]
        exact h.child j conn t hconn ht
  · exact if_pos ⟨conn, s, hconn, hs, .refl s⟩

variable {entries : List (String × Expr)} {aliases : UnionFind String}

/-- Links that are preserved leave nothing out. -/
theorem reached_of_linked (hentries : portEntries wrapper inst.portConnections 0 = .ok entries)
    (hports : NamesPorts wrapper inst) (hobs : Observable L child)
    (hlinked : ∀ x y, Through L wrapper inst child x y ↔
      Direct L (liftedChild L.toSyntax inst (signalMap wrapper (portMap entries) aliases) child) x y)
    {conn : PortConnection Expr} (hconn : conn ∈ child.portConnections) {s : String}
    (hs : conn.expression.bind L.simpleIdentifierName = some s) :
    ∃ p e, Attached wrapper inst p e ∧ Aliased L.toSyntax wrapper p s ∧
      (s ∈ wrapper.signalNames ∨ conn.expression = some e) := by
  have hne : child.portConnections ≠ [] := List.ne_nil_of_mem hconn
  obtain ⟨j, hj⟩ := List.getElem?_of_mem hconn
  obtain ⟨lsb, hlsb⟩ := hobs.lsb
  obtain ⟨one, hone⟩ := hobs.one
  obtain ⟨e₀, he₀⟩ : ∃ e, (remapConnection L.toSyntax (signalMap wrapper (portMap entries) aliases) conn).expression =
      some e := by
    rw [remapConnection_expression hs]
    obtain ⟨e, he, -⟩ := Option.bind_eq_some_iff.mp hs
    cases signalMap wrapper (portMap entries) aliases s with
    | none => exact ⟨e, he⟩
    | some e' => exact ⟨e', rfl⟩
  -- the lowest bit at the connection, seen from the new instance
  have hseen : ∀ {x y}, Direct L (liftedChild L.toSyntax inst (signalMap wrapper (portMap entries) aliases) child) x y →
      lsb j (y j) = x e₀ 0 := fun h => hlsb j conn _ _ _ hj (L.exprShape_pos e₀) (direct_liftedChild.mp h j conn e₀ hj he₀)
  by_cases hidle : ∀ p e, Attached wrapper inst p e → ¬Aliased L.toSyntax wrapper p s
  · exfalso
    obtain ⟨y, hy⟩ := exists_direct hobs hne fun _ => L.zero
    obtain ⟨y', hy'⟩ := exists_direct hobs hne fun _ => one
    obtain ⟨signal, hsolves⟩ := (hlinked _ _).mpr hy
    obtain ⟨signal', hsolves'⟩ := (hlinked _ _).mpr hy'
    obtain ⟨z, hz, hzj⟩ := hsolves.exchange hsolves' hidle
    have hzero := hseen ((hlinked _ _).mp hz)
    rw [hzj j conn hj hs, hseen hy'] at hzero
    exact hone hzero
  · simp only [not_forall, not_not, exists_prop] at hidle
    obtain ⟨p, e, hp, halias⟩ := hidle
    refine ⟨p, e, hp, halias, or_iff_not_imp_left.mpr fun hundeclared => ?_⟩
    rw [remapConnection_expression hs, signalMap_of_undeclared hentries hports hundeclared, Option.none_or] at he₀
    rw [he₀]
    by_contra hdiffer
    classical
    obtain ⟨y, hy⟩ := exists_direct hobs hne fun e' => if e' = e then one else L.zero
    obtain ⟨signal, hsolves⟩ := (hlinked _ _).mpr hy
    have hthrough : lsb j (y j) = signal s 0 := hlsb j conn _ _ _ hj (L.shapeOf_pos wrapper s) (hsolves.child j conn s hj hs)
    rw [hseen hy, hsolves.lsb_attached hp halias] at hthrough
    simp only [bit0, if_true] at hthrough
    rw [if_neg fun h => hdiffer (congrArg some h)] at hthrough
    exact hone hthrough.symm

/-- No two expressions are connected to one class. -/
theorem alone_of_linked (hne : child.portConnections ≠ []) (hobs : Observable L child)
    {signals : String → Option Expr}
    (hlinked : ∀ x y, Through L wrapper inst child x y ↔ Direct L (liftedChild L.toSyntax inst signals child) x y)
    {p p' : String} {e e' : Expr} (hp : Attached wrapper inst p e) (hp' : Attached wrapper inst p' e')
    (halias : Aliased L.toSyntax wrapper p p') : e = e' := by
  obtain ⟨one, hone⟩ := hobs.one
  by_contra hdiffer
  classical
  obtain ⟨y, hy⟩ := exists_direct hobs hne fun f => if f = e then one else L.zero
  obtain ⟨signal, hsolves⟩ := (hlinked _ _).mpr hy
  have hsame := (hsolves.lsb_attached hp halias).symm.trans (hsolves.lsb_attached hp' (.refl p'))
  simp only [bit0, if_true] at hsame
  rw [if_neg fun h => hdiffer h.symm] at hsame
  exact hone hsame

/-- No class with an expression has a constant. -/
theorem undriven_of_linked (hne : child.portConnections ≠ []) (hobs : Observable L child)
    {signals : String → Option Expr}
    (hlinked : ∀ x y, Through L wrapper inst child x y ↔ Direct L (liftedChild L.toSyntax inst signals child) x y)
    {p s : String} {e : Expr} (hp : Attached wrapper inst p e) (halias : Aliased L.toSyntax wrapper p s) :
    L.initialOf wrapper s = none := by
  obtain ⟨one, hone⟩ := hobs.one
  cases hinitial : L.initialOf wrapper s with
  | none => rfl
  | some v =>
    exfalso
    have hall : ∀ b, v 0 = b := fun b => by
      obtain ⟨y, hy⟩ := exists_direct hobs hne fun _ => b
      obtain ⟨signal, hsolves⟩ := (hlinked _ _).mpr hy
      rw [← hsolves.initial s v hinitial 0 (L.shapeOf_pos _ _), hsolves.lsb_attached hp halias]
      rfl
    exact hone ((hall one).symm.trans (hall L.zero))

end Backward

/-! ## The names of the parent -/

section Names

variable (L : Wiring Expr Item Bit Formal) (parent : Module Expr Item) {k : Nat}

/-- The name of an instance that takes the place of another one, in addition to the other names. -/
theorem count_scopeNames_set (hk : k < parent.body.instances.length) (newChild : Instance Expr) :
    (L.scopeNames { parent with body := { parent.body with
        instances := parent.body.instances.set k newChild } }).count newChild.instanceName =
      (L.scopeNames { parent with body := { parent.body with
        instances := parent.body.instances.eraseIdx k } }).count newChild.instanceName + 1 := by
  have hperm : ((parent.body.instances.set k newChild).map (·.instanceName)).Perm
      (newChild.instanceName :: (parent.body.instances.eraseIdx k).map (·.instanceName)) :=
    (List.set_perm_cons_eraseIdx hk newChild).map _
  simp only [Wiring.scopeNames, Module.declaredNames, List.count_append, hperm.count_eq, List.count_cons_self]
  omega

theorem count_scopeNames_set_eq_one (hk : k < parent.body.instances.length) (newChild : Instance Expr) :
    (L.scopeNames { parent with body := { parent.body with
        instances := parent.body.instances.set k newChild } }).count newChild.instanceName = 1 ↔
      newChild.instanceName ∉ L.scopeNames { parent with body := { parent.body with
        instances := parent.body.instances.eraseIdx k } } := by
  rw [count_scopeNames_set L parent hk, ← List.count_eq_zero]
  omega

end Names

/-! ## The collapse -/

section Collapse

variable (L : Wiring Expr Item Bit Formal) {design : List (Module Expr Item)} {path : List Char}
  {parent parent' wrapper : Module Expr Item} {k : Nat} {inst child : Instance Expr}

/-- The wrapper passes on what it is given, and every class of aliases that the child hangs on belongs to one
expression. -/
theorem preserved_of_collapsible (hpath : resolveInstancePath design path = some (parent, k))
    (hinst : parent.body.instances[k]? = some inst) (hwrapper : resolvedModule design inst = some wrapper)
    (hchild : wrapper.body.instances = [child])
    (h : previewCollapseHierarchy L.toSyntax design path = .ok parent')
    (hsafe : Collapsible L parent k inst wrapper child) (hpass : PassesOn L inst wrapper) :
    ∃ newChild, Preserved L parent k inst wrapper child parent' newChild := by
  obtain ⟨c, entries, aliases, hc, hpure, hentries, haliases, hparent⟩ :=
    previewCollapseHierarchy_ok h hpath hinst hwrapper
  obtain rfl : c = child := List.singleton_inj.mp (hc.symm.trans hchild)
  have hk : k < parent.body.instances.length := (List.getElem?_eq_some_iff.mp hinst).1
  refine ⟨_, ⟨hparent, rfl, fun x y => ?_, ?_, hsafe.constants, ?_, ?_⟩⟩
  · exact through_iff_direct hentries haliases hpure hsafe hpass
  · intro conn hconn
    obtain ⟨old, hold, rfl⟩ := List.mem_map.mp hconn
    obtain ⟨s, hs, -⟩ := hpure.signal old hold
    obtain ⟨p, e, ⟨j, outer, port, houter, -, -, he⟩, -, hnew⟩ :=
      lifted_expression hentries haliases hpass.namesPorts hsafe hold hs
    exact ⟨outer, List.mem_of_getElem? houter, he.trans hnew.symm⟩
  · rw [hparent]
    exact (count_scopeNames_set_eq_one L parent hk _).mpr hsafe.fresh
  · rw [hsafe.single, Nat.one_mul]
    rfl

/-- Where the ports of the child can be told apart, each class belongs to one expression if connectivity is
preserved. -/
theorem collapsible_of_preserved (hpath : resolveInstancePath design path = some (parent, k))
    (hinst : parent.body.instances[k]? = some inst) (hwrapper : resolvedModule design inst = some wrapper)
    (hchild : wrapper.body.instances = [child])
    (h : previewCollapseHierarchy L.toSyntax design path = .ok parent') (hports : NamesPorts wrapper inst)
    (hobs : Observable L child) {newChild : Instance Expr}
    (hpreserved : Preserved L parent k inst wrapper child parent' newChild) :
    Collapsible L parent k inst wrapper child := by
  obtain ⟨c, entries, aliases, hc, hpure, hentries, haliases, hparent⟩ :=
    previewCollapseHierarchy_ok h hpath hinst hwrapper
  obtain rfl : c = child := List.singleton_inj.mp (hc.symm.trans hchild)
  have hk : k < parent.body.instances.length := (List.getElem?_eq_some_iff.mp hinst).1
  obtain rfl : newChild = liftedChild L.toSyntax inst (signalMap wrapper (portMap entries) aliases) c := by
    have hset := congrArg (fun m => m.body.instances[k]?) (hpreserved.edited.symm.trans hparent)
    simpa [hk] using hset
  refine ⟨?_, ?_, hpreserved.parentConstants, fun conn hconn s hs => ?_, fun p e p' e' hp hp' halias => ?_,
    fun p e s hp hs => ?_⟩
  · have hcount := hpreserved.elements
    exact Nat.eq_of_mul_eq_mul_right (L.elements_pos c.instanceArray) (hcount.symm.trans (Nat.one_mul _).symm)
  · have hcount := hpreserved.fresh
    rw [hparent] at hcount
    exact (count_scopeNames_set_eq_one L parent hk _).mp hcount
  · exact reached_of_linked hentries hports hobs hpreserved.linked hconn hs
  · exact alone_of_linked hpure.connected hobs hpreserved.linked hp hp' halias
  · exact undriven_of_linked hpure.connected hobs hpreserved.linked hp hs

end Collapse

/-! ## A feed-through -/

/-- Designs of one-bit nets, in which every expression is a name and every item an assign. -/
def netWiring : Wiring String (String × String) Bool (Nat → Bool) where
  simpleIdentifierName := some
  lhs := Prod.fst
  rhs := Prod.snd
  zero := false
  portShape _ := ⟨1, false⟩
  declShape _ := ⟨1, false⟩
  exprShape _ := ⟨1, false⟩
  portShape_pos _ := Nat.one_pos
  declShape_pos _ := Nat.one_pos
  exprShape_pos _ := Nat.one_pos
  portInitial _ := none
  declInitial _ := none
  elements _ := 1
  elements_pos _ := Nat.one_pos
  names e := [e]
  imported _ := []
  itemNames _ := []
  linked _ _ s v y := ∀ i, i < s.bits → y i = v i
  linked_congr _ _ _ _ _ _ h := forall₂_congr fun i hi => by rw [h i hi]

/-- `module wrap (input a, output y); core u_core (.x(a), .z(y)); endmodule`, or with `assign y = a;` and `.x(a)`. -/
def wrapModule (feedThrough : Bool) : Module String (String × String) where
  name := "wrap"
  parameters := []
  ports := [⟨"a", .input, none, none, none, [], 0, false, false, none⟩,
    ⟨"y", .output, none, none, none, [], 0, false, false, none⟩]
  imports := []
  body :=
    { Body.ofInstances [⟨"core", "u_core", none, false, [],
        ⟨some "x", some "a", true⟩ :: if feedThrough then [] else [⟨some "z", some "y", true⟩]⟩] with
      continuousAssigns := if feedThrough then [("y", "a")] else [] }

/-- `wrap u_wrap (.a(n), .y(m));` -/
def wrapInstance : Instance String :=
  ⟨"wrap", "u_wrap", none, false, [], [⟨some "a", some "n", true⟩, ⟨some "y", some "m", true⟩]⟩

/-- `wire n, m;` and one instance. -/
def topModule (inst : Instance String) : Module String (String × String) where
  name := "top"
  parameters := []
  ports := []
  imports := []
  body := { Body.ofInstances [inst] with nets := [("n", ("n", "n")), ("m", ("m", "m"))] }

def wrapDesign (feedThrough : Bool) : List (Module String (String × String)) :=
  [topModule wrapInstance, wrapModule feedThrough, ⟨"core", [], [], [], Body.ofInstances []⟩]

/-- The instance that is written in place of the wrapper. -/
def liftedCore (feedThrough : Bool) : Instance String :=
  ⟨"core", "u_wrap__u_core", none, false, [],
    ⟨some "x", some "n", true⟩ :: if feedThrough then [] else [⟨some "z", some "m", true⟩]⟩

theorem attached_wrapInstance {feedThrough : Bool} {p e : String}
    (h : Attached (wrapModule feedThrough) wrapInstance p e) : p = "a" ∧ e = "n" ∨ p = "y" ∧ e = "m" := by
  obtain ⟨k, conn, port, hconn, hport, rfl, he⟩ := h
  match k with
  | 0 =>
    obtain rfl := Option.some.inj hconn
    obtain rfl := Option.some.inj hport
    exact .inl ⟨rfl, (Option.some.inj he).symm⟩
  | 1 =>
    obtain rfl := Option.some.inj hconn
    obtain rfl := Option.some.inj hport
    exact .inr ⟨rfl, (Option.some.inj he).symm⟩
  | _ + 2 => exact absurd hconn.symm (Option.some_ne_none conn)

theorem namesPorts_wrapInstance (feedThrough : Bool) : NamesPorts (wrapModule feedThrough) wrapInstance := by
  intro conn hconn _ n hn
  rcases List.mem_cons.mp hconn with rfl | hconn
  · obtain rfl := Option.some.inj hn
    exact List.mem_cons_self
  · obtain rfl := List.mem_singleton.mp hconn
    obtain rfl := Option.some.inj hn
    exact List.mem_cons_of_mem _ List.mem_cons_self

theorem initialOf_netWiring (m : Module String (String × String)) (n : String) : netWiring.initialOf m n = none := by
  simp [Wiring.initialOf, netWiring]

theorem aliased_wrapModule {a b : String} (h : Aliased netWiring.toSyntax (wrapModule false) a b) : a = b := by
  induction h with
  | rel _ _ h => exact absurd h List.not_mem_nil
  | refl => rfl
  | symm _ _ _ ih => exact ih.symm
  | trans _ _ _ _ _ ih ih' => exact ih.trans ih'

end Veriforge.Refactor

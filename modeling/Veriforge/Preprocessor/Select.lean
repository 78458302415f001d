import Veriforge.Except
import Veriforge.Preprocessor.Blocks

/-! # The line loop selects the tree's lines

One line: what the loop does on a line of each kind. A tree: by induction, the loop puts the selected lines
out and goes on with the stack it had. Any source: a run that does not raise shows that the source is a
tree. -/

namespace Veriforge.Preprocessor

/-! ## Reading a directive -/

/-- A keyword on a line of its own, up to a character that is no part of it. -/
theorem parseDirective_keyword {indent keyword args : Line} {k : Keyword}
    (hi : indent.all isSpace = true) (hk : keyword.all isWord = true)
    (hlook : keywords.lookup keyword = some k) (ha : ∀ c ∈ args.head?, isWord c = false) :
    parseDirective (indent ++ '`' :: (keyword ++ args)) = some (k, args) := by
  rw [parseDirective, dropWhile_append_of_all hi, List.dropWhile_cons, if_neg (by decide : ¬ isSpace '`' = true)]
  show (keywords.lookup ((keyword ++ args).takeWhile isWord)).map
    (fun k => (k, (keyword ++ args).dropWhile isWord)) = some (k, args)
  rw [takeWhile_append_of_all hk ha, dropWhile_append_of_all hk, dropWhile_of_head ha, hlook]
  rfl

section

variable {h : Named}

theorem Named.Valid.gap_head (hv : h.Valid) (rest : Line) : ∀ c ∈ (h.gap ++ rest).head?, isWord c = false := by
  intro c hc
  obtain ⟨g, gs, hg⟩ := List.exists_cons_of_ne_nil hv.gap_ne
  have hgap := hv.gap
  rw [hg] at hc hgap
  rw [List.all_cons, Bool.and_eq_true] at hgap
  cases hc
  exact not_word_of_space hgap.1

theorem Named.Valid.name_ne (hv : h.Valid) : h.name ≠ [] := by
  intro hn
  have hname := hv.name
  rw [hn] at hname
  exact absurd hname (by decide)

/-- A name starts with no white space. -/
theorem Named.Valid.name_head (hv : h.Valid) (rest : Line) : ∀ c ∈ (h.name ++ rest).head?, isSpace c = false := by
  intro c hc
  obtain ⟨n, ns, hn⟩ := List.exists_cons_of_ne_nil hv.name_ne
  have hname := hv.name
  rw [hn] at hc hname
  rw [isName, Bool.and_eq_true, Bool.or_eq_true] at hname
  cases hc
  refine not_space_of_word ?_
  rw [isWord, Bool.or_eq_true]
  refine hname.1.imp_left fun ha => ?_
  rw [Char.isAlphanum, ha, Bool.true_or]

/-- The rest of a line after its directive, stripped. -/
theorem Named.Valid.strip_args (hv : h.Valid) :
    strip (h.gap ++ (h.name ++ h.trailing)) = strip (h.name ++ h.trailing) := by
  rw [strip, strip, dropWhile_append_of_all hv.gap]

theorem Named.Valid.strip_ne (hv : h.Valid) : strip (h.gap ++ (h.name ++ h.trailing)) ≠ [] := by
  rw [hv.strip_args, strip, dropWhile_of_head (hv.name_head _), rstrip]
  intro hnil
  rw [List.rdropWhile_eq_nil_iff] at hnil
  obtain ⟨n, ns, hn⟩ := List.exists_cons_of_ne_nil hv.name_ne
  have hmem : n ∈ h.name ++ h.trailing := by rw [hn]; simp
  have hspace := hv.name_head h.trailing n (by rw [hn]; rfl)
  exact absurd (hspace.symm.trans (hnil n hmem)) (by decide)

theorem Named.Valid.parseDirective (hv : h.Valid) {keyword : Line} {k : Keyword}
    (hk : keyword.all isWord = true) (hlook : keywords.lookup keyword = some k) :
    parseDirective (h.render keyword) = some (k, h.gap ++ (h.name ++ h.trailing)) :=
  parseDirective_keyword hv.indent hk hlook (hv.gap_head _)

/-- A definition whose name ends where `_DEFINE_RE` looks for the end. -/
theorem Named.Valid.handleDefine (hv : h.Valid) (hw : h.name.all isWord = true)
    (ht : (defineTail h.trailing).isSome = true) (D : Defines) :
    handleDefine (h.gap ++ (h.name ++ h.trailing)) D
      = .ok (Function.update D h.name (some h.macro)) := by
  have htrail : ∀ c ∈ h.trailing.head?, isWord c = false := by
    intro c hc
    have hnc := hv.trailing c hc
    rw [isNameChar, Bool.or_eq_false_iff] at hnc
    exact hnc.1
  obtain ⟨⟨params, value⟩, hpv⟩ := Option.isSome_iff_exists.mp ht
  unfold Preprocessor.handleDefine
  dsimp only
  rw [dropWhile_append_of_all hv.gap, dropWhile_of_head (hv.name_head _),
    takeWhile_append_of_all hw htrail, dropWhile_append_of_all hw, dropWhile_of_head htrail,
    if_neg hv.name_ne, hpv, Named.macro, hpv]

end

/-! ## One line -/

section

variable {ctx : Context} {stack : List Level} {D : Defines} {line : Line} {lines rest : List Line}

/-- The loop on a directive. -/
theorem processLines_directive {text args : Line} {k : Keyword}
    (hj : joinContinued line lines = (text, rest)) (hp : parseDirective text = some (k, args)) :
    processLines ctx stack D (line :: lines)
      = (runDirective ctx k args stack D).bind fun r =>
          (processLines ctx r.1 r.2.1 rest).map fun r' => (r.2.2 ++ r'.1, r'.2) := by
  rw [processLines, hj]
  dsimp only
  rw [hp]
  dsimp only
  cases runDirective ctx k args stack D with
  | error e => rfl
  | ok r =>
    cases hrest : processLines ctx r.1 r.2.1 rest with
    | error e => simp [hrest, Except.bind, Except.map, bind]
    | ok r' => simp [hrest, Except.bind, Except.map, bind, pure, Except.pure]

/-- The loop on a text line where all is active. -/
theorem processLines_text {text joined : Line} {extra : Nat} {rest' : List Line}
    (hact : allActive stack = true) (hj : joinContinued line lines = (text, rest))
    (hp : parseDirective text = none) (hm : joinMacro text rest = (joined, extra, rest')) :
    processLines ctx stack D (line :: lines)
      = (processLines ctx stack D rest').map fun r =>
          (List.replicate extra [] ++ [ctx.expand D joined] ++ r.1, r.2) := by
  rw [processLines, hj]
  dsimp only
  rw [hp]
  dsimp only
  rw [if_pos hact, hm]
  cases hrest : processLines ctx stack D rest' <;>
    simp [Except.map, bind, Except.bind, pure, Except.pure]

/-- The loop on a text line where not all is active. -/
theorem processLines_blank {text : Line} (hact : allActive stack = false)
    (hj : joinContinued line lines = (text, rest)) (hp : parseDirective text = none) :
    processLines ctx stack D (line :: lines)
      = (processLines ctx stack D rest).map fun r => ([] :: r.1, r.2) := by
  rw [processLines, hj]
  dsimp only
  rw [hp]
  dsimp only
  rw [hact, if_neg Bool.false_ne_true]
  cases hrest : processLines ctx stack D rest <;>
    simp [Except.map, bind, Except.bind, pure, Except.pure]

theorem joinContinued_of_not_continues (lines : List Line) (h : continues line = false) :
    joinContinued line lines = (line, lines) := by
  cases lines with
  | nil => rfl
  | cons next lines => rw [joinContinued, h, if_neg Bool.false_ne_true]

/-- Two pieces of output put one after the other. -/
theorem map_append_append (r : Except PreprocessorError (List Line × Defines)) (xs ys : List Line) :
    (r.map fun r => (ys ++ r.1, r.2)).map (fun r => (xs ++ r.1, r.2))
      = r.map fun r => ((xs ++ ys) ++ r.1, r.2) := by
  cases r with
  | error e => rfl
  | ok r => simp [Except.map]

theorem map_cons_append (r : Except PreprocessorError (List Line × Defines)) (x : Line)
    (ys : List Line) :
    (r.map fun r => (ys ++ r.1, r.2)).map (fun r => (x :: r.1, r.2))
      = r.map fun r => ((x :: ys) ++ r.1, r.2) :=
  map_append_append r [x] ys

/-- Where not all is active, the lines that a macro call goes on to are blanked one by one. -/
theorem processLines_blanks (hact : allActive stack = false) (more : List Line)
    (hm : ∀ m ∈ more, parseDirective m = none ∧ continues m = false) :
    processLines ctx stack D (more ++ rest)
      = (processLines ctx stack D rest).map fun r => (List.replicate more.length [] ++ r.1, r.2) := by
  induction more with
  | nil =>
    show processLines ctx stack D rest = (processLines ctx stack D rest).map fun r => ([] ++ r.1, r.2)
    cases processLines ctx stack D rest <;> rfl
  | cons m more ih =>
    obtain ⟨hp, hc⟩ := hm m List.mem_cons_self
    rw [List.cons_append, processLines_blank hact (joinContinued_of_not_continues _ hc) hp,
      ih (fun m' h => hm m' (List.mem_cons_of_mem _ h)), map_cons_append, List.length_cons,
      List.replicate_succ]

/-! The loop on each kind of directive line, its layout being valid. -/

variable {h : Named} {b : Bare}

theorem processLines_ifdef {negated : Bool} (hv : h.Valid)
    (hj : joinContinued line lines = ((SrcLine.ifdef negated h).render, rest)) :
    processLines ctx stack D (line :: lines)
      = (processLines ctx
          (⟨allActive stack && (D.has (strip (h.name ++ h.trailing)) != negated),
            allActive stack && (D.has (strip (h.name ++ h.trailing)) != negated), false⟩ :: stack)
          D rest).map fun r => ([] :: r.1, r.2) := by
  cases negated with
  | false =>
    rw [processLines_directive hj (hv.parseDirective (k := .ifdef) rfl rfl), runDirective,
      if_neg hv.strip_ne, hv.strip_args, Bool.bne_false]
    rfl
  | true =>
    rw [processLines_directive hj (hv.parseDirective (k := .ifndef) rfl rfl), runDirective,
      if_neg hv.strip_ne, hv.strip_args, Bool.bne_true]
    rfl

theorem processLines_elsif {active seen : Bool} (hv : h.Valid)
    (hj : joinContinued line lines = ((SrcLine.elsif h).render, rest)) :
    processLines ctx (⟨active, seen, false⟩ :: stack) D (line :: lines)
      = (processLines ctx
          (⟨allActive stack && !seen && D.has (strip (h.name ++ h.trailing)),
            seen || (allActive stack && !seen && D.has (strip (h.name ++ h.trailing))), false⟩ :: stack)
          D rest).map fun r => ([] :: r.1, r.2) := by
  rw [processLines_directive hj (hv.parseDirective (k := .elsif) rfl rfl), runDirective]
  dsimp only
  rw [if_neg Bool.false_ne_true, if_neg hv.strip_ne, hv.strip_args]
  rfl

theorem Bare.Valid.parseDirective (hv : b.Valid) {keyword : Line} {k : Keyword}
    (hk : keyword.all isWord = true) (hlook : keywords.lookup keyword = some k) :
    parseDirective (b.render keyword) = some (k, b.trailing) :=
  parseDirective_keyword hv.indent hk hlook hv.trailing

theorem processLines_else {active seen : Bool} (hv : b.Valid)
    (hj : joinContinued line lines = ((SrcLine.else b).render, rest)) :
    processLines ctx (⟨active, seen, false⟩ :: stack) D (line :: lines)
      = (processLines ctx
          (⟨allActive stack && !seen, seen || (allActive stack && !seen), true⟩ :: stack)
          D rest).map fun r => ([] :: r.1, r.2) := by
  rw [processLines_directive hj (hv.parseDirective (k := .else) rfl rfl), runDirective]
  dsimp only
  rw [if_neg Bool.false_ne_true]
  rfl

theorem processLines_endif {top : Level} (hv : b.Valid)
    (hj : joinContinued line lines = ((SrcLine.endif b).render, rest)) :
    processLines ctx (top :: stack) D (line :: lines)
      = (processLines ctx stack D rest).map fun r => ([] :: r.1, r.2) := by
  rw [processLines_directive hj (hv.parseDirective (k := .endif) rfl rfl), runDirective]
  rfl

/-- The loop on a line that opens or closes no conditional. -/
theorem processLines_plain {l : Plain} {rest' : List Line} (hv : (SrcLine.plain l).Valid)
    (hj : joinContinued line lines = ((SrcLine.plain l).render, rest))
    (hg : (SrcLine.plain l).GoesOn rest rest') (hcare : l.Careful (allActive stack) D) :
    processLines ctx stack D (line :: lines)
      = (processLines ctx stack (l.select ctx (allActive stack) D).2 rest').map fun r =>
          ((l.select ctx (allActive stack) D).1 ++ r.1, r.2) := by
  cases l with
  | text t more =>
    obtain ⟨hp, hmore⟩ := hv
    obtain ⟨rfl, hm⟩ := hg
    rw [Plain.select]
    cases hact : allActive stack with
    | true => exact processLines_text hact hj hp hm
    | false =>
      rw [processLines_blank hact hj hp, processLines_blanks hact more hmore, map_cons_append,
        if_neg Bool.false_ne_true, ← List.replicate_succ, List.replicate_succ']
  | define h =>
    obtain rfl := hg
    have hp : parseDirective (SrcLine.plain (.define h)).render = some (.define, _) :=
      Named.Valid.parseDirective hv rfl rfl
    rw [processLines_directive hj hp, runDirective, Plain.select]
    cases hact : allActive stack with
    | false => rfl
    | true =>
      obtain ⟨hw, ht⟩ := hcare hact
      rw [Named.Valid.handleDefine hv hw ht]
      rfl
  | undef h =>
    obtain rfl := hg
    have hp : parseDirective (SrcLine.plain (.undef h)).render = some (.undef, _) :=
      Named.Valid.parseDirective hv rfl rfl
    rw [processLines_directive hj hp, runDirective, Plain.select]
    cases hact : allActive stack with
    | false => rfl
    | true =>
      rw [if_neg (Named.Valid.strip_ne hv), Named.Valid.strip_args hv, hcare hact]
      rfl

end

/-! ## A tree -/

variable {ctx : Context}

mutual

/-- The loop puts the lines selected by a source out, and goes on with the stack it had. -/
theorem processLines_source (s : Source) {stack : List Level} {D : Defines} {lines : List Line}
    {ls : List SrcLine} (hw : Written lines (s.lines ++ ls)) (hc : s.Careful ctx (allActive stack) D) :
    ∃ rest, Written rest ls ∧ processLines ctx stack D lines
      = (processLines ctx stack (s.select ctx (allActive stack) D).2 rest).map fun r =>
          ((s.select ctx (allActive stack) D).1 ++ r.1, r.2) := by
  match s with
  | .nil =>
    refine ⟨lines, hw, ?_⟩
    rw [Source.select]
    show processLines ctx stack D lines = (processLines ctx stack D lines).map _
    cases processLines ctx stack D lines <;> rfl
  | .line l rest =>
    rw [Source.lines, List.cons_append] at hw
    rw [Source.Careful] at hc
    cases hw with
    | cons hv hj hg hw =>
      obtain ⟨after, hw, h⟩ := processLines_source rest hw hc.2
      refine ⟨after, hw, ?_⟩
      rw [processLines_plain hv hj hg hc.1, h, map_append_append, Source.select]
  | .cond negated head body tail rest =>
    rw [Source.lines, List.cons_append, List.append_assoc, List.append_assoc] at hw
    rw [Source.Careful] at hc
    obtain ⟨hname, hbody, htail, hrest⟩ := hc
    have hdecide : (allActive stack && (D.has (strip (head.name ++ head.trailing)) != negated))
        = (allActive stack && (D.has head.name != negated)) := by
      cases hact : allActive stack with
      | false => rfl
      | true => rw [hname hact]
    -- the stack inside the branch is active just if the branch is taken
    have hact : ∀ a : Bool, allActive (⟨allActive stack && a, allActive stack && a, false⟩ :: stack)
        = (allActive stack && a) := by
      intro a
      rw [allActive, List.all_cons, ← allActive, Bool.and_right_comm, Bool.and_self]
    cases hw with
    | cons hv hj hg hw =>
      obtain rfl := hg
      rw [← hact] at hbody
      obtain ⟨_, hw, h₁⟩ := processLines_source body hw hbody
      rw [hact] at h₁
      obtain ⟨_, hw, h₂⟩ := processLines_tail tail hw htail
      obtain ⟨after, hw, h₃⟩ := processLines_source rest hw hrest
      refine ⟨after, hw, ?_⟩
      rw [processLines_ifdef hv hj, hdecide, h₁, h₂, h₃, map_append_append, map_append_append,
        map_cons_append, Source.select, List.append_assoc]

/-- The same for the rest of a conditional, whose level of the stack is on top. -/
theorem processLines_tail (t : Tail) {stack : List Level} {active seen : Bool} {D : Defines}
    {lines : List Line} {ls : List SrcLine} (hw : Written lines (t.lines ++ ls))
    (hc : t.Careful ctx (allActive stack) seen D) :
    ∃ rest, Written rest ls ∧ processLines ctx (⟨active, seen, false⟩ :: stack) D lines
      = (processLines ctx stack (t.select ctx (allActive stack) seen D).2 rest).map fun r =>
          ((t.select ctx (allActive stack) seen D).1 ++ r.1, r.2) := by
  match t with
  | .endif head =>
    rw [Tail.lines] at hw
    cases hw with
    | cons hv hj hg hw =>
      obtain rfl := hg
      refine ⟨_, hw, ?_⟩
      rw [processLines_endif hv hj, Tail.select]
      rfl
  | .else head body close =>
    rw [Tail.lines, List.cons_append, List.append_assoc] at hw
    rw [Tail.Careful] at hc
    have hact : allActive (⟨allActive stack && !seen, seen || (allActive stack && !seen), true⟩ :: stack)
        = (allActive stack && !seen) := by
      rw [allActive, List.all_cons, ← allActive, Bool.and_right_comm, Bool.and_self]
    cases hw with
    | cons hv hj hg hw =>
      obtain rfl := hg
      rw [← hact] at hc
      obtain ⟨_, hw, h₁⟩ := processLines_source body hw hc
      rw [hact] at h₁
      cases hw with
      | cons hv' hj' hg hw =>
        obtain rfl := hg
        refine ⟨_, hw, ?_⟩
        rw [processLines_else hv hj, h₁, processLines_endif hv' hj', Tail.select]
        exact (congrArg _ (map_append_append _ _ [[]])).trans (map_cons_append _ _ _)
  | .elsif head body tail =>
    rw [Tail.lines, List.cons_append, List.append_assoc] at hw
    rw [Tail.Careful] at hc
    obtain ⟨hname, hbody, htail⟩ := hc
    have hdecide : (allActive stack && !seen && D.has (strip (head.name ++ head.trailing)))
        = (allActive stack && !seen && D.has head.name) := by
      cases hact : (allActive stack && !seen) with
      | false => rfl
      | true => rw [hname hact]
    have hact : ∀ a b : Bool, allActive (⟨allActive stack && a, b, false⟩ :: stack)
        = (allActive stack && a) := by
      intro a b
      rw [allActive, List.all_cons, ← allActive, Bool.and_right_comm, Bool.and_self]
    cases hw with
    | cons hv hj hg hw =>
      obtain rfl := hg
      rw [Bool.and_assoc] at hbody htail
      rw [← hact _ (seen || (allActive stack && (!seen && D.has head.name)))] at hbody
      obtain ⟨_, hw, h₁⟩ := processLines_source body hw hbody
      rw [hact] at h₁
      obtain ⟨after, hw, h₂⟩ := processLines_tail tail hw htail
      refine ⟨after, hw, ?_⟩
      rw [processLines_elsif hv hj, hdecide, Bool.and_assoc, h₁, h₂, map_append_append,
        map_cons_append, Tail.select, Bool.and_assoc]

end

/-! ## Any source -/

/-- What is left of a source inside conditionals, given by whether each is in its `else` branch. -/
inductive Closes : List Bool → List SrcLine → Prop
  | done (s : Source) : Closes [] s.lines
  | branch {levels rest} (s : Source) (t : Tail) : Closes levels rest →
      Closes (false :: levels) (s.lines ++ (t.lines ++ rest))
  | else {levels rest} (s : Source) (close : Bare) : Closes levels rest →
      Closes (true :: levels) (s.lines ++ (.endif close :: rest))

theorem Closes.plain {levels : List Bool} {ls : List SrcLine} (h : Closes levels ls) (l : Plain) :
    Closes levels (.plain l :: ls) := by
  cases h with
  | done s => exact .done (.line l s)
  | branch s t h => exact .branch (.line l s) t h
  | «else» s close h => exact .else (.line l s) close h

/-- A conditional that is closed is part of the source around it. -/
theorem Closes.ifdef {levels : List Bool} {ls : List SrcLine} (h : Closes (false :: levels) ls)
    (negated : Bool) (head : Named) : Closes levels (.ifdef negated head :: ls) := by
  cases h with
  | branch s t h =>
    cases h with
    | done s' => exact .done (.cond negated head s t s')
    | branch s' t' h =>
      have hc := Closes.branch (.cond negated head s t s') t' h
      rwa [Source.lines, List.cons_append, List.append_assoc, List.append_assoc] at hc
    | «else» s' close h =>
      have hc := Closes.else (.cond negated head s t s') close h
      rwa [Source.lines, List.cons_append, List.append_assoc, List.append_assoc] at hc

theorem Closes.elsif {levels : List Bool} {ls : List SrcLine} (h : Closes (false :: levels) ls)
    (head : Named) : Closes (false :: levels) (.elsif head :: ls) := by
  cases h with
  | branch s t h =>
    have hc := Closes.branch .nil (.elsif head s t) h
    rwa [Source.lines, List.nil_append, Tail.lines, List.cons_append, List.append_assoc] at hc

theorem Closes.elseBranch {levels : List Bool} {ls : List SrcLine} (h : Closes (true :: levels) ls)
    (head : Bare) : Closes (false :: levels) (.else head :: ls) := by
  cases h with
  | «else» s close h =>
    have hc := Closes.branch .nil (.else head s close) h
    rwa [Source.lines, List.nil_append, Tail.lines, List.cons_append, List.append_assoc] at hc

theorem Closes.endif {levels : List Bool} {ls : List SrcLine} (h : Closes levels ls) (inElse : Bool)
    (head : Bare) : Closes (inElse :: levels) (.endif head :: ls) := by
  cases inElse with
  | false => exact .branch .nil (.endif head) h
  | true => exact .else .nil head h

/-- A directive that does not raise is followed by a run that does not. -/
theorem ok_of_directive {stack : List Level} {D : Defines} {line text args : Line} {k : Keyword}
    {lines rest : List Line} {r : List Line × Defines}
    (h : processLines ctx stack D (line :: lines) = .ok r)
    (hj : joinContinued line lines = (text, rest)) (hp : parseDirective text = some (k, args)) :
    ∃ r₁ r₂, runDirective ctx k args stack D = .ok r₁ ∧ processLines ctx r₁.1 r₁.2.1 rest = .ok r₂ := by
  rw [processLines_directive hj hp] at h
  obtain ⟨r₁, h₁, h⟩ := ok_of_bind h
  obtain ⟨r₂, h₂⟩ := ok_of_map h
  exact ⟨r₁, r₂, h₁, h₂⟩

/-- A run that does not raise closes what it was started in. -/
theorem closes_of_ok {lines : List Line} {ls : List SrcLine} (hw : Written lines ls)
    {stack : List Level} {D : Defines} {r : List Line × Defines}
    (h : processLines ctx stack D lines = .ok r) : Closes (stack.map (·.inElse)) ls := by
  induction hw generalizing stack D r with
  | nil =>
    rw [processLines] at h
    split at h
    · next hs =>
      subst hs
      exact .done .nil
    · cases h
  | @cons line lines lines' rest l ls hv hj hg hw ih =>
    cases l with
    | plain l =>
      refine Closes.plain ?_ l
      cases l with
      | text t more =>
        rw [processLines_plain hv hj hg trivial] at h
        obtain ⟨r', h⟩ := ok_of_map h
        exact ih h
      | define head =>
        obtain rfl := hg
        obtain ⟨r₁, r₂, h₁, h₂⟩ :=
          ok_of_directive h hj (Named.Valid.parseDirective hv (k := .define) rfl rfl)
        rw [runDirective] at h₁
        split at h₁
        · cases h₁
          exact ih h₂
        · obtain ⟨D', hD⟩ := ok_of_map h₁
          rw [hD] at h₁
          cases h₁
          exact ih h₂
      | undef head =>
        obtain rfl := hg
        obtain ⟨r₁, r₂, h₁, h₂⟩ :=
          ok_of_directive h hj (Named.Valid.parseDirective hv (k := .undef) rfl rfl)
        rw [runDirective, if_neg (Named.Valid.strip_ne hv)] at h₁
        split at h₁ <;> cases h₁ <;> exact ih h₂
    | ifdef negated head =>
      obtain rfl := hg
      refine Closes.ifdef ?_ negated head
      rw [processLines_ifdef hv hj] at h
      obtain ⟨r', h⟩ := ok_of_map h
      exact ih h
    | elsif head =>
      obtain rfl := hg
      obtain ⟨r₁, r₂, h₁, h₂⟩ :=
        ok_of_directive h hj (Named.Valid.parseDirective hv (k := .elsif) rfl rfl)
      cases stack with
      | nil => cases h₁
      | cons top levels =>
        rw [runDirective] at h₁
        split at h₁
        · cases h₁
        · next helse =>
          rw [if_neg (Named.Valid.strip_ne hv)] at h₁
          cases h₁
          rw [List.map_cons, eq_false_of_ne_true helse]
          exact Closes.elsif (ih h₂) head
    | «else» head =>
      obtain rfl := hg
      obtain ⟨r₁, r₂, h₁, h₂⟩ :=
        ok_of_directive h hj (Bare.Valid.parseDirective hv (k := .else) rfl rfl)
      cases stack with
      | nil => cases h₁
      | cons top levels =>
        rw [runDirective] at h₁
        split at h₁
        · cases h₁
        · next helse =>
          cases h₁
          rw [List.map_cons, eq_false_of_ne_true helse]
          exact Closes.elseBranch (ih h₂) head
    | endif head =>
      obtain rfl := hg
      obtain ⟨r₁, r₂, h₁, h₂⟩ :=
        ok_of_directive h hj (Bare.Valid.parseDirective hv (k := .endif) rfl rfl)
      cases stack with
      | nil => cases h₁
      | cons top levels =>
        cases h₁
        exact Closes.endif (ih h₂) _ head

/-- A context that expands nothing and brings nothing in. -/
def plainContext : Context := ⟨fun _ t => t, fun _ D => .ok ([], D)⟩

/-- `` `define FOO ``, then a text inside `` `ifdef FOO `` with the given rest of the line. -/
def fooGuarded (trailing : Line) : Source :=
  .line (.define ⟨[], [' '], "FOO".toList, []⟩)
    (.cond false ⟨[], [' '], "FOO".toList, trailing⟩ (.line (.text ['x'] []) .nil) (.endif ⟨[], []⟩)
      .nil)

theorem fooGuarded_written {trailing : Line} (ht : ∀ c ∈ trailing.head?, isNameChar c = false)
    (hc : continues ("`ifdef FOO".toList ++ trailing) = false) :
    Written ["`define FOO".toList, "`ifdef FOO".toList ++ trailing, ['x'], "`endif".toList]
      (fooGuarded trailing).lines := by
  refine .cons ⟨rfl, rfl, List.cons_ne_nil _ _, rfl, nofun⟩ rfl rfl ?_
  refine .cons ⟨rfl, rfl, List.cons_ne_nil _ _, rfl, ht⟩ (joinContinued_of_not_continues _ hc) rfl ?_
  refine .cons ⟨rfl, nofun⟩ rfl ⟨rfl, rfl⟩ ?_
  exact .cons ⟨rfl, nofun⟩ rfl rfl .nil

end Veriforge.Preprocessor

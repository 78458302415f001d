import Mathlib.Data.List.Basic
import Veriforge.Runs
import Veriforge.Sim.Eval
import Veriforge.Trace.Capture

/-! # Triggers

A trigger expression is evaluated at the deliveries of a session. At a step without a delivery its value is
taken for that of the last one, although `$rose`, `$fell` and `$changed` have gone back to 0 by then. -/

namespace Veriforge.Trace

/-! ## Trigger expressions -/

inductive EdgeKind where
  | rose
  | fell
  | changed
  deriving DecidableEq

/-- `TriggerExpr`, of a parsed expression: in `expr` the synthetic name of `edges[i]` stands for that edge. -/
structure TriggerExpr where
  edges : List (EdgeKind × String)
  expr : Expr

/-- The signals of the session, by position: names and widths. -/
abbrev Names := List (String × Nat)

/-- `_values`: the value of a name. -/
def Names.value (names : Names) (cur : Values) (name : String) : Nat × Nat :=
  cur (names.findIdx fun decl => decl.1 == name)

/-- Whether an edge function is hit, of the values after and before. -/
def EdgeKind.hit (now before : Nat × Nat) : EdgeKind → Bool
  | .changed => now != before
  | .rose => now.2 % 2 == 0 && before.2 % 2 == 0 && now.1 % 2 == 1 && before.1 % 2 == 0
  | .fell => now.2 % 2 == 0 && before.2 % 2 == 0 && now.1 % 2 == 0 && before.1 % 2 == 1

namespace TriggerExpr

/-- The synthetic name of an edge. -/
def synth (i : Nat) : String := "__trig" ++ toString i

/-- The signals that the expression may read: the synthetic ones hide others of the same name. -/
def table (e : TriggerExpr) (names : Names) : SignalTable :=
  .vectors (e.edges.zipIdx.map (fun p => (synth p.2, 1, false)) ++ names.map fun decl => (decl.1, decl.2, false))

/-- Their values. -/
def valueOf (e : TriggerExpr) (names : Names) (cur prev : Values) (name : String) : Nat × Nat :=
  match e.edges.zipIdx.find? fun p => synth p.2 == name with
  | some (edge, _) => (if edge.1.hit (names.value cur edge.2) (names.value prev edge.2) then 1 else 0, 0)
  | none => names.value cur name

/-- `holds`. An expression that the evaluator rejects does not hold. -/
def holds (e : TriggerExpr) (names : Names) (cur prev : Values) : Bool :=
  let store := Store.ofBits (e.table names) (fun n => (e.valueOf names cur prev n).1)
    fun n => (e.valueOf names cur prev n).2
  (eval store e.expr 0 none).any fun result => result.mask == 0 && result.val != 0

end TriggerExpr

/-! ## Time steps -/

/-- The values after a step. -/
def settled (deliveries : List (List Change)) (values : Values) : Values :=
  deliveries.foldl (fun values changes => applied changes values) values

/-- A time step: what arrives of its changes, delivery by delivery. -/
structure Step where
  time : Nat
  deliveries : List (List Change)

namespace Session

variable (o : Options)

/-- A step of the session, and whether the trigger fires in it. -/
def advance (time : Nat) : List (List Change) → Session → Bool × Session
  | [], s => (false, s)
  | changes :: rest, s =>
      let next := advance time rest (s.dispatch o time changes)
      ((decide (changes ≠ []) && s.fired o time changes) || next.1, next.2)

/-- Whether the trigger fires, step by step. -/
def firings : List Step → Session → List Bool
  | [], _ => []
  | step :: steps, s =>
      let after := s.advance o step.time step.deliveries
      after.1 :: firings steps after.2

end Session

/-- What an evaluation at every step says: whether the condition holds, between the values before the step
and after it, and did not hold at the previous step. -/
def firesAt (holds : Values → Values → Bool) : List Step → (values : Values) → (held : Bool) → List Bool
  | [], _, _ => []
  | step :: steps, values, held =>
      let after := settled step.deliveries values
      (holds after values && !held) :: firesAt holds steps after (holds after values)

/-- The values before a delivery, as `on_changes` keeps them: those before the last change of each signal. -/
def before (changes : List Change) (values : Values) : Values :=
  (changes.foldl (fun p c => (Function.update p.1 c.signal c.value, Function.update p.2 c.signal (p.1 c.signal)))
    (values, values)).2

/-- The conditions that the deliveries of a step find, one after another. -/
def found (holds : Values → Values → Bool) : List (List Change) → Values → List Bool
  | [], _ => []
  | changes :: rest, values =>
      if changes = [] then found holds rest values
      else holds (applied changes values) (before changes values) :: found holds rest (applied changes values)

/-- The deliveries of a step find the condition of the step before, and then that of the step; a step
without a delivery has the condition of the step before. -/
def Shown (holds : Values → Values → Bool) (values : Values) (held : Bool) (deliveries : List (List Change)) : Prop :=
  ∃ a b, found holds deliveries values =
      List.replicate a held ++ List.replicate b (holds (settled deliveries values) values) ∧
    (b = 0 → holds (settled deliveries values) values = held)

/-- Every step shows its condition. -/
def EachShown (holds : Values → Values → Bool) : List Step → (values : Values) → (held : Bool) → Prop
  | [], _, _ => True
  | step :: steps, values, held =>
      Shown holds values held step.deliveries ∧
        EachShown holds steps (settled step.deliveries values) (holds (settled step.deliveries values) values)

/-! ## What a delivery finds -/

namespace Session

variable {o : Options}

/-- What severity events do to a session leaves the stream alone. -/
structure Alike (s s' : Session) : Prop where
  cur : s'.cur = s.cur
  cond : s'.cond = s.cond

theorem Alike.refl (s : Session) : Alike s s := ⟨rfl, rfl⟩

theorem Alike.trans {s s' s'' : Session} (h : Alike s s') (h' : Alike s' s'') : Alike s s'' :=
  ⟨h'.cur.trans h.cur, h'.cond.trans h.cond⟩

theorem alike_startCapture (time : Nat) (reason : Reason) (post : Nat) (s : Session) :
    Alike s (s.startCapture o time reason post) := ⟨rfl, rfl⟩

theorem alike_finishCapture (s : Session) : Alike s s.finishCapture := ⟨rfl, rfl⟩

theorem alike_failAt (time : Nat) (reason : Reason) (s : Session) : Alike s (s.failAt o time reason) := by
  unfold failAt
  split
  · split
    · exact Alike.refl s
    · exact ⟨rfl, rfl⟩
  · exact ⟨rfl, rfl⟩

theorem alike_finish (time : Nat) (s : Session) : Alike s (if s.expired time then s.finishCapture else s) := by
  split
  · exact alike_finishCapture s
  · exact Alike.refl s

theorem alike_act (e : Event) (s : Session) : Alike s (s.act o e) := by
  have h := alike_finish e.time s
  unfold act
  dsimp only
  generalize (if s.expired e.time then s.finishCapture else s) = s' at h ⊢
  split
  · exact h.trans (alike_failAt _ _ _)
  · split
    · exact h.trans (alike_startCapture _ _ _ _)
    · exact h

theorem alike_takeEvents (upto : Nat) (fatalAtUpto : Bool) (events : List Event) :
    ∀ s : Session, Alike s (s.takeEvents o upto fatalAtUpto events) := by
  induction events with
  | nil => exact fun s => ⟨rfl, rfl⟩
  | cons e events ih =>
    intro s
    rw [takeEvents]
    split
    · exact ⟨rfl, rfl⟩
    · exact (alike_act e s).trans (ih _)

theorem alike_takePending (upto : Nat) (fatalAtUpto : Bool) (s : Session) :
    Alike s (s.takePending o upto fatalAtUpto) :=
  alike_takeEvents upto fatalAtUpto s.pending s

theorem alike_writeLive (time : Nat) (changes : List Change) (s : Session) : Alike s (s.writeLive o time changes) := by
  unfold writeLive
  split
  · exact Alike.refl s
  · dsimp only
    split
    · exact Alike.refl s
    · exact ⟨rfl, rfl⟩

theorem alike_trim (time : Nat) (s : Session) : Alike s (s.trim o time) := by
  unfold trim
  split
  · exact Alike.refl s
  · exact ⟨rfl, rfl⟩

theorem alike_fire (fires : Bool) (time : Nat) (s : Session) :
    Alike s ((if fires then s.startCapture o time (.trigger o.triggerReason) o.post else s).trim o time) := by
  cases fires with
  | false => exact alike_trim time s
  | true => exact (alike_startCapture _ _ _ s).trans (alike_trim time _)

/-- The loop over the changes: the new values, the remembered condition, and the values before. -/
theorem applyChanges_spec (time : Nat) (changes : List Change) (s : Session) :
    (s.applyChanges o time changes).1.cur = applied changes s.cur ∧ (s.applyChanges o time changes).1.cond = s.cond ∧
      (fun k => ((s.applyChanges o time changes).2 k).getD ((s.applyChanges o time changes).1.cur k)) =
        before changes s.cur := by
  -- the invariant of the loop, with the values before it as `q.2`
  have hloop : ∀ (changes : List Change) (p : Session × (Nat → Option (Nat × Nat))) (q : Values × Values),
      p.1.cur = q.1 → (fun k => (p.2 k).getD (p.1.cur k)) = q.2 →
      (changes.foldl (applyChange o time) p).1.cur = applied changes p.1.cur ∧
        (changes.foldl (applyChange o time) p).1.cond = p.1.cond ∧
        (fun k => ((changes.foldl (applyChange o time) p).2 k).getD ((changes.foldl (applyChange o time) p).1.cur k)) =
          (changes.foldl (fun p c =>
            (Function.update p.1 c.signal c.value, Function.update p.2 c.signal (p.1 c.signal))) q).2 := by
    intro changes
    induction changes with
    | nil => exact fun p q _ h => ⟨rfl, rfl, h⟩
    | cons c changes ih =>
      intro p q hcur hbefore
      refine ih (applyChange o time p c)
        (Function.update q.1 c.signal c.value, Function.update q.2 c.signal (q.1 c.signal))
        (by rw [← hcur]; rfl) ?_
      funext k
      change (Function.update p.2 c.signal (some (p.1.cur c.signal)) k).getD
        (Function.update p.1.cur c.signal c.value k) = Function.update q.2 c.signal (q.1 c.signal) k
      by_cases hk : k = c.signal
      · rw [hk, Function.update_self, Option.getD_some, Function.update_self, hcur]
      · rw [Function.update_of_ne hk, Function.update_of_ne hk, Function.update_of_ne hk, ← hbefore]
  exact hloop changes (s, fun _ => none) (s.cur, s.cur) rfl rfl

theorem alike_opened (time : Nat) (s : Session) : Alike s (s.opened o time) :=
  (alike_takePending time false s).trans (alike_finish time _)

theorem receive_spec (time : Nat) (changes : List Change) (s : Session) :
    (s.receive o time changes).cur = applied changes s.cur ∧ (s.receive o time changes).cond = s.cond := by
  have hopened := alike_opened (o := o) time s
  obtain ⟨hcur, hcond, -⟩ := applyChanges_spec (o := o) time changes (s.opened o time)
  have hlive := alike_writeLive (o := o) time changes ((s.opened o time).applyChanges o time changes).1
  have hafter := hlive.trans (alike_takePending (o := o) time true _)
  rw [hopened.cur] at hcur
  exact ⟨hafter.cur.trans hcur, hafter.cond.trans (hcond.trans hopened.cond)⟩

/-- What a delivery finds. -/
theorem seen_eq {condition : Nat → Values → Values → Bool} (hc : o.condition = some condition) (time : Nat)
    (changes : List Change) (s : Session) :
    s.seen o time changes = condition time (applied changes s.cur) (before changes s.cur) := by
  obtain ⟨hcur, -⟩ := receive_spec (o := o) time changes s
  obtain ⟨hcur', -, hbefore⟩ := applyChanges_spec (o := o) time changes (s.opened o time)
  rw [(alike_opened (o := o) time s).cur] at hcur' hbefore
  unfold seen evalAt
  rw [hc, hcur, ← hbefore, hcur']

theorem onChanges_spec {condition : Nat → Values → Values → Bool} (hc : o.condition = some condition) (time : Nat)
    (changes : List Change) (s : Session) :
    (s.onChanges o time changes).cur = applied changes s.cur ∧
      (s.onChanges o time changes).cond = s.seen o time changes := by
  obtain ⟨hcur, -⟩ := receive_spec (o := o) time changes s
  have h := fun b => alike_fire (o := o) b time { s.receive o time changes with cond := s.seen o time changes }
  unfold onChanges
  rw [hc]
  exact ⟨(h _).cur.trans hcur, (h _).cond⟩

end Session

/-! ## Steps -/

/-- Whether the condition rises along these values of it. -/
def rises : (held : Bool) → List Bool → Bool
  | _, [] => false
  | held, c :: cs => (c && !held) || rises c cs

theorem rises_replicate (c : Bool) (n : Nat) : rises c (List.replicate n c) = false := by
  induction n with
  | zero => rfl
  | succ n ih => rw [List.replicate_succ, rises, ih, Bool.and_not_self, Bool.or_false]

/-- Along a value that changes at most once. -/
theorem rises_shown (held c : Bool) {a b : Nat} (hb : b = 0 → c = held) :
    rises held (List.replicate a held ++ List.replicate b c) = (c && !held) ∧
      (List.replicate a held ++ List.replicate b c).getLastD held = c := by
  constructor
  · induction a with
    | zero =>
      cases b with
      | zero => rw [hb rfl, Bool.and_not_self]; rfl
      | succ b =>
        rw [List.replicate_zero, List.nil_append, List.replicate_succ, rises, rises_replicate, Bool.or_false]
    | succ a ih => rw [List.replicate_succ, List.cons_append, rises, ih, Bool.and_not_self, Bool.false_or]
  · cases b with
    | zero =>
      rw [hb rfl, List.replicate_zero, List.append_nil]
      cases a with
      | zero => rfl
      | succ a => rw [List.replicate_succ', List.getLastD_concat]
    | succ b => rw [List.replicate_succ', ← List.append_assoc, List.getLastD_concat]

variable {o : Options} {holds : Values → Values → Bool}

/-- A step of the session, by what its deliveries find. -/
theorem advance_spec (hc : o.condition = some fun _ => holds) (time : Nat) (deliveries : List (List Change)) :
    ∀ s : Session, (s.advance o time deliveries).1 = rises s.cond (found holds deliveries s.cur) ∧
      (s.advance o time deliveries).2.cur = settled deliveries s.cur ∧
      (s.advance o time deliveries).2.cond = (found holds deliveries s.cur).getLastD s.cond := by
  induction deliveries with
  | nil => exact fun s => ⟨rfl, rfl, rfl⟩
  | cons changes rest ih =>
    intro s
    obtain ⟨hfires, hcur, hcond⟩ := ih (s.dispatch o time changes)
    by_cases hnil : changes = []
    · have hdispatch : s.dispatch o time changes = s := if_pos hnil
      rw [hdispatch] at hfires hcur hcond
      rw [Session.advance, found, if_pos hnil, hdispatch]
      refine ⟨?_, ?_, hcond⟩
      · dsimp only
        rw [hfires, decide_eq_false (not_not.mpr hnil), Bool.false_and, Bool.false_or]
      · rw [hcur, hnil]
        rfl
    · have hdispatch : s.dispatch o time changes = s.onChanges o time changes := if_neg hnil
      obtain ⟨hcur', hcond'⟩ := Session.onChanges_spec hc time changes s
      rw [Session.seen_eq hc] at hcond'
      rw [hdispatch, hcur', hcond'] at hfires hcond
      rw [hdispatch, hcur'] at hcur
      rw [Session.advance, found, if_neg hnil, hdispatch]
      refine ⟨?_, hcur, ?_⟩
      · dsimp only
        rw [hfires, decide_eq_true hnil, Bool.true_and, Session.fired, hc, Option.isSome_some, Bool.true_and,
          Session.seen_eq hc]
        rfl
      · rw [hcond, List.getLastD_cons]

/-- Where every step shows its condition, the session fires when the condition begins to hold. -/
theorem firings_eq (hc : o.condition = some fun _ => holds) (steps : List Step) :
    ∀ s : Session, EachShown holds steps s.cur s.cond → s.firings o steps = firesAt holds steps s.cur s.cond := by
  induction steps with
  | nil => exact fun s _ => rfl
  | cons step steps ih =>
    intro s hshown
    obtain ⟨⟨a, b, hfound, hb⟩, hrest⟩ := hshown
    obtain ⟨hfires, hcur, hcond⟩ := advance_spec hc step.time step.deliveries s
    obtain ⟨hrises, hlast⟩ := rises_shown (a := a) s.cond _ hb
    rw [hfound, hrises] at hfires
    rw [hfound, hlast] at hcond
    rw [Session.firings, firesAt, hfires, ih _ (by rw [hcur, hcond]; exact hrest), hcur, hcond]

/-- A session with a trigger expression. -/
def Options.triggeredBy (o : Options) (e : TriggerExpr) (names : Names) : Options :=
  { o with condition := some fun _ => e.holds names }

/-- Where the deliveries of every step show its condition, a session sees its trigger fire at the steps at
which the condition begins to hold. -/
theorem firings_attach (o : Options) (e : TriggerExpr) (names : Names) (time : Nat) (cur : Values) (steps : List Step)
    (hshown : EachShown (e.holds names) steps cur (e.holds names cur cur)) :
    (Session.attach (o.triggeredBy e names) time cur).firings (o.triggeredBy e names) steps =
      firesAt (e.holds names) steps cur (e.holds names cur cur) :=
  firings_eq rfl steps (Session.attach (o.triggeredBy e names) time cur) hshown

/-- A session without severity events. -/
def plainOptions : Options := ⟨1, 10, 10, 1, true, true, none, ""⟩

/-- All signals are 0. -/
def zeros : Values := fun _ => (0, 0)

/-- `a` -/
def levelA : TriggerExpr := ⟨[], .ident [] "a"⟩

/-- `$changed(a)` -/
def changedA : TriggerExpr := ⟨[(.changed, "a")], .ident [] "__trig0"⟩

/-- `a` goes up, keeps its value and goes down. -/
def pulse : List Step := [⟨1, [[⟨0, (1, 0)⟩]]⟩, ⟨2, []⟩, ⟨3, [[⟨0, (0, 0)⟩]]⟩]

theorem firings_attach_level :
    (Session.attach (plainOptions.triggeredBy levelA [("a", 1)]) 0 zeros).firings
      (plainOptions.triggeredBy levelA [("a", 1)]) pulse = [true, false, false] := by
  rw [firings_attach plainOptions levelA [("a", 1)] 0 zeros pulse
    ⟨⟨0, 1, by decide +kernel, by decide⟩, ⟨0, 0, by decide +kernel, by decide +kernel⟩,
      ⟨0, 1, by decide +kernel, by decide⟩, trivial⟩]
  decide +kernel

/-- The second change of `a` does not fire, although nothing changes before it. -/
theorem changed_missed :
    ¬ ∀ (o : Options) (e : TriggerExpr) (names : Names) (time : Nat) (cur : Values) (steps : List Step),
      (Session.attach (o.triggeredBy e names) time cur).firings (o.triggeredBy e names) steps =
        firesAt (e.holds names) steps cur (e.holds names cur cur) := by
  intro h
  exact absurd (h plainOptions changedA [("a", 1)] 0 zeros pulse) (by decide +kernel)

end Veriforge.Trace

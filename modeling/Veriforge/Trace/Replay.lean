import Mathlib.Data.List.Basic
import Mathlib.Tactic.ByContra
import Veriforge.Trace.Dump

/-! # Replaying a dump

Read up to a time, the file of a session shows the value that every signal has then, and x while the
session is paused. A session that is paused when its window opens writes values all the same. -/

namespace Veriforge.Trace

/-! ## Files -/

/-- The time of a section. -/
def Section.time : Section → Option Nat
  | .dump _ time _ => some time
  | .changes time _ => some time
  | .comment _ => none

/-- What a section makes of the values that a reader has. -/
def Section.shown (known : Nat → Option (Nat × Nat)) : Section → Nat → Option (Nat × Nat)
  | .dump _ _ values => fun k => values[k]?.or (known k)
  | .changes _ delivery => delivery.foldl (fun known c => Function.update known c.signal (some c.value)) known
  | .comment _ => known

/-- The sections up to a time. -/
def Section.upTo (t : Nat) (sec : Section) : Bool := sec.time.all fun time => decide (time ≤ t)

/-- The values that a file shows at a time. -/
def replay (file : List Section) (t : Nat) : Nat → Option (Nat × Nat) :=
  (file.filter (Section.upTo t)).foldl Section.shown fun _ => none

theorem replay_concat (file : List Section) {sec : Section} {t : Nat} (h : sec.upTo t = true) :
    replay (file ++ [sec]) t = sec.shown (replay file t) := by
  unfold replay
  rw [List.filter_append, List.filter_singleton, h, List.foldl_append]
  rfl

theorem shown_values {n : Nat} {values : Values} (keyword : Keyword) (time : Nat)
    (known : Nat → Option (Nat × Nat)) {k : Nat} (hk : k < n) :
    Section.shown known (.dump keyword time ((List.range n).map values)) k = some (values k) := by
  simp [Section.shown, hk]

theorem shown_unknown {o : DumpOptions} (keyword : Keyword) (time : Nat) (known : Nat → Option (Nat × Nat)) {k : Nat}
    (hk : k < o.widths.length) :
    Section.shown known (.dump keyword time o.unknown) k = some (0, (1 <<< o.widths[k]) - 1) := by
  simp [Section.shown, DumpOptions.unknown, hk]

/-- A reader that knows the values knows those after a delivery. -/
theorem shown_changes {n : Nat} (time : Nat) (changes : List Change) :
    ∀ (values : Values) (known : Nat → Option (Nat × Nat)), (∀ k < n, known k = some (values k)) →
      ∀ k < n, Section.shown known (.changes time changes) k = some (applied changes values k) := by
  induction changes with
  | nil => exact fun _ _ h => h
  | cons c changes ih =>
    intro values known h
    refine ih (Function.update values c.signal c.value) (Function.update known c.signal (some c.value)) fun k hk => ?_
    by_cases hkc : k = c.signal
    · rw [hkc, Function.update_self, Function.update_self]
    · rw [Function.update_of_ne hkc, Function.update_of_ne hkc, h k hk]

/-! ## What a dump should show -/

variable {o : DumpOptions}

/-- The value of a signal at a time. -/
def valueAt (initial : Values) (stream : List (Nat × Change)) (t : Nat) : Values :=
  valuesAfter initial (stream.filter fun x => decide (x.1 ≤ t))

/-- Whether the last call of `pause` or `resume` up to a time is a pause. -/
def pausedAt (pauses : List (Nat × Bool)) (t : Nat) : Bool :=
  ((pauses.filter fun p => decide (p.1 ≤ t)).getLast?).any Prod.snd

/-- What the file should show at a time. -/
def display (o : DumpOptions) (initial : Values) (stream : List (Nat × Change)) (pauses : List (Nat × Bool)) (t k : Nat) :
    Nat × Nat :=
  if pausedAt pauses t then (0, (1 <<< o.widths.getD k 0) - 1) else valueAt initial stream t k

/-- Where the window begins. -/
def DumpOptions.opens (o : DumpOptions) (attachTime : Nat) : Nat := max (o.start.getD 0) attachTime

/-- The times of the window. -/
def DumpOptions.Window (o : DumpOptions) (attachTime t : Nat) : Prop :=
  o.opens attachTime ≤ t ∧ ∀ stop ∈ o.stop, t ≤ stop

/-- A file shows the values inside its window, and nothing is written outside. -/
structure Shows (o : DumpOptions) (attachTime : Nat) (initial : Values) (stream : List (Nat × Change))
    (pauses : List (Nat × Bool)) (last : Nat) (file : List Section) : Prop where
  inside : ∀ t, o.Window attachTime t → t ≤ last → ∀ k < o.widths.length,
    replay file t k = some (display o initial stream pauses t k)
  outside : ∀ sec ∈ file, ∀ t ∈ sec.time, o.Window attachTime t

/-! ## Runs -/

/-- What happens to a session before it is closed. Where a call polls the hub, what that delivers comes as
a delivery of its own before the call. -/
inductive DumpOp where
  | deliver (time : Nat) (changes : List Change)
  | pause (now : Nat)
  | resume (now : Nat)
  | dumpAll (now : Nat)

namespace DumpOp

def perform (o : DumpOptions) (s : DumpSession) : DumpOp → DumpSession
  | .deliver time changes => s.dispatch o time changes
  | .pause now => s.pause o now []
  | .resume now => s.resume o now []
  | .dumpAll now => s.dumpAll o now []

/-- The time of it. -/
def now : DumpOp → Nat
  | .deliver time _ => time
  | .pause now => now
  | .resume now => now
  | .dumpAll now => now

/-- What it adds to the stream. -/
def stream : DumpOp → List (Nat × Change)
  | .deliver time changes => changes.map fun c => (time, c)
  | _ => []

/-- What it adds to the pauses. -/
def pauses : DumpOp → List (Nat × Bool)
  | .pause now => [(now, true)]
  | .resume now => [(now, false)]
  | _ => []

end DumpOp

/-- The window may be opened: the session is not paused, and the window does not end before it starts. -/
def Opens (o : DumpOptions) (s : DumpSession) : Prop :=
  s.paused = false ∧ ∀ start ∈ o.start, ∀ stop ∈ o.stop, start ≤ stop

/-- A window that is due is not opened while the session is paused; nor is the session paused before it is
opened, nor resumed unless at the start. -/
def Unpaused (o : DumpOptions) (s : DumpSession) : DumpOp → Prop
  | .deliver time changes => changes ≠ [] → s.due o time = true → Opens o s
  | .pause now => s.due o now = false
  | .resume now => s.due o now = true → s.paused = true → o.start = some now
  | .dumpAll _ => True

/-- The runs of a session that was attached at a time, with their streams and pauses, in which every step
meets `P`. Times do not decrease. -/
inductive DumpRun (o : DumpOptions) (P : DumpSession → DumpOp → Prop) (attachTime : Nat) (initial : Values) :
    DumpSession → List (Nat × Change) → List (Nat × Bool) → Nat → Prop where
  | attach : DumpRun o P attachTime initial (DumpSession.attach o attachTime initial) [] [] attachTime
  | step {s : DumpSession} {stream : List (Nat × Change)} {pauses : List (Nat × Bool)} {last : Nat}
      (h : DumpRun o P attachTime initial s stream pauses last) (op : DumpOp) (hle : last ≤ op.now) (hP : P s op) :
      DumpRun o P attachTime initial (op.perform o s) (stream ++ op.stream) (pauses ++ op.pauses) op.now

/-! ## What an open window shows -/

variable {attachTime : Nat} {initial : Values} {stream : List (Nat × Change)} {pauses : List (Nat × Bool)} {last : Nat}
  {s : DumpSession}

/-- What comes later does not matter. -/
theorem display_later {new : List (Nat × Change)} {news : List (Nat × Bool)} {t : Nat} (hnew : ∀ x ∈ new, t < x.1)
    (hnews : ∀ p ∈ news, t < p.1) (k : Nat) :
    display o initial (stream ++ new) (pauses ++ news) t k = display o initial stream pauses t k := by
  have hnil : ∀ {α : Type} {xs : List (Nat × α)}, (∀ x ∈ xs, t < x.1) → (xs.filter fun x => decide (x.1 ≤ t)) = [] := by
    intro α xs hxs
    rw [List.filter_eq_nil_iff]
    intro x hx hle
    exact absurd (of_decide_eq_true hle) (Nat.not_le_of_gt (hxs x hx))
  unfold display pausedAt valueAt
  rw [List.filter_append, List.filter_append, hnil hnew, hnil hnews, List.append_nil, List.append_nil]

theorem filter_upTo {α : Type} {xs : List (Nat × α)} {t : Nat} (h : ∀ x ∈ xs, x.1 ≤ t) :
    (xs.filter fun x => decide (x.1 ≤ t)) = xs :=
  List.filter_eq_self.mpr fun x hx => decide_eq_true (h x hx)

theorem pausedAt_last {t : Nat} (h : ∀ p ∈ pauses, p.1 ≤ t) : pausedAt pauses t = pauses.getLast?.any Prod.snd := by
  unfold pausedAt
  rw [filter_upTo h]

theorem valueAt_last {t : Nat} (h : ∀ x ∈ stream, x.1 ≤ t) : valueAt initial stream t = valuesAfter initial stream := by
  unfold valueAt
  rw [filter_upTo h]

/-- What a session should show now. -/
def DumpSession.face (o : DumpOptions) (s : DumpSession) (k : Nat) : Nat × Nat :=
  if s.paused then (0, (1 <<< o.widths.getD k 0) - 1) else s.cur k

/-- A session with its stream and its pauses. -/
structure DumpInv (o : DumpOptions) (attachTime : Nat) (initial : Values) (stream : List (Nat × Change))
    (pauses : List (Nat × Bool)) (last : Nat) (s : DumpSession) : Prop where
  values : s.cur = valuesAfter initial stream
  delivered : ∀ x ∈ stream, x.1 ≤ last
  called : ∀ p ∈ pauses, p.1 ≤ last
  paused : s.paused = pauses.getLast?.any Prod.snd
  attached : attachTime ≤ last
  outside : ∀ sec ∈ s.file, ∀ t ∈ sec.time, o.Window attachTime t
  opened : s.started = true → o.opens attachTime ≤ last
  shows : s.started = true → ∀ t, o.Window attachTime t → ∀ k < o.widths.length,
    replay s.file t k = some (display o initial stream pauses t k)
  waiting : s.started = false → s.file = [] ∧ ∃ start, o.start = some start ∧ attachTime < start ∧
    (∀ x ∈ stream, x.1 < start) ∧ ∀ t, start ≤ t → pausedAt pauses t = s.paused

theorem replay_append_later {file secs : List Section} {now t : Nat} (htimes : ∀ sec ∈ secs, sec.time = some now)
    (ht : t < now) : replay (file ++ secs) t = replay file t := by
  have hnil : secs.filter (Section.upTo t) = [] := by
    rw [List.filter_eq_nil_iff]
    intro sec hsec hupTo
    unfold Section.upTo at hupTo
    rw [htimes sec hsec] at hupTo
    exact absurd (of_decide_eq_true hupTo) (Nat.not_le_of_gt ht)
  unfold replay
  rw [List.filter_append, hnil, List.append_nil]

theorem replay_append {file secs : List Section} {now t : Nat} (htimes : ∀ sec ∈ secs, sec.time = some now)
    (ht : now ≤ t) : replay (file ++ secs) t = secs.foldl Section.shown (replay file t) := by
  have hall : secs.filter (Section.upTo t) = secs := by
    rw [List.filter_eq_self]
    intro sec hsec
    unfold Section.upTo
    rw [htimes sec hsec]
    exact decide_eq_true ht
  unfold replay
  rw [List.filter_append, hall, List.foldl_append]

/-- A call or a delivery to a session whose window is open: what it writes at its time must turn what the
session showed into what it shows after it. -/
theorem DumpInv.extend (hi : DumpInv o attachTime initial stream pauses last s) (hstarted : s.started = true)
    {now : Nat} (hle : last ≤ now) {s' : DumpSession} (secs : List Section) {new : List (Nat × Change)}
    {news : List (Nat × Bool)} (hfile : s'.file = s.file ++ secs) (htimes : ∀ sec ∈ secs, sec.time = some now)
    (hnew : ∀ x ∈ new, x.1 = now) (hnews : ∀ p ∈ news, p.1 = now)
    (hcur : s'.cur = valuesAfter initial (stream ++ new))
    (hpaused : s'.paused = (pauses ++ news).getLast?.any Prod.snd) (hstarted' : s'.started = true)
    (hwindow : secs ≠ [] → ∀ stop ∈ o.stop, now ≤ stop)
    (hshow : (∀ stop ∈ o.stop, now ≤ stop) → ∀ known, (∀ k < o.widths.length, known k = some (s.face o k)) →
      ∀ k < o.widths.length, secs.foldl Section.shown known k = some (s'.face o k)) :
    DumpInv o attachTime initial (stream ++ new) (pauses ++ news) now s' := by
  have hdelivered : ∀ x ∈ stream ++ new, x.1 ≤ now := by
    intro x hx
    rcases List.mem_append.mp hx with hx | hx
    · exact Nat.le_trans (hi.delivered x hx) hle
    · exact Nat.le_of_eq (hnew x hx)
  have hcalled : ∀ p ∈ pauses ++ news, p.1 ≤ now := by
    intro p hp
    rcases List.mem_append.mp hp with hp | hp
    · exact Nat.le_trans (hi.called p hp) hle
    · exact Nat.le_of_eq (hnews p hp)
  have hface : ∀ t, last ≤ t → ∀ k, display o initial stream pauses t k = s.face o k := by
    intro t ht k
    unfold display DumpSession.face
    rw [pausedAt_last fun p hp => Nat.le_trans (hi.called p hp) ht,
      valueAt_last fun x hx => Nat.le_trans (hi.delivered x hx) ht, hi.paused, hi.values]
  have hface' : ∀ t, now ≤ t → ∀ k, display o initial (stream ++ new) (pauses ++ news) t k = s'.face o k := by
    intro t ht k
    unfold display DumpSession.face
    rw [pausedAt_last fun p hp => Nat.le_trans (hcalled p hp) ht,
      valueAt_last fun x hx => Nat.le_trans (hdelivered x hx) ht, hpaused, hcur]
  refine ⟨hcur, hdelivered, hcalled, hpaused, Nat.le_trans hi.attached hle, ?_, fun _ => ?_, ?_, ?_⟩
  · intro sec hsec t ht
    rw [hfile] at hsec
    rcases List.mem_append.mp hsec with hsec | hsec
    · exact hi.outside sec hsec t ht
    · rw [htimes sec hsec] at ht
      obtain rfl := Option.some.inj ht
      exact ⟨Nat.le_trans (hi.opened hstarted) hle, hwindow (List.ne_nil_of_mem hsec)⟩
  · exact Nat.le_trans (hi.opened hstarted) hle
  · intro _ t ht k hk
    rw [hfile]
    by_cases hlt : t < now
    · rw [replay_append_later htimes hlt, display_later (fun x hx => hnew x hx ▸ hlt) (fun p hp => hnews p hp ▸ hlt)]
      exact hi.shows hstarted t ht k hk
    · have hge := Nat.le_of_not_lt hlt
      rw [replay_append htimes hge, hface' t hge]
      refine hshow (fun stop hstop => Nat.le_trans hge (ht.2 stop hstop)) _ (fun j hj => ?_) k hk
      rw [hi.shows hstarted t ht j hj, hface t (Nat.le_trans hle hge)]
  · intro h
    rw [hstarted'] at h
    exact Bool.noConfusion h

/-! ## Opening the window -/

theorem DumpOptions.all_stop {stop : Option Nat} {t : Nat} :
    (stop.all fun e => decide (t ≤ e)) = true ↔ ∀ e ∈ stop, t ≤ e := by
  cases stop <;> simp

/-- While nothing has reached the limit, a session writes if it is open, not paused and inside its window. -/
theorem DumpSession.writing_iff (hlimit : s.limited = false) {t : Nat} :
    s.writing o t = true ↔ s.started = true ∧ s.paused = false ∧ ∀ stop ∈ o.stop, t ≤ stop := by
  unfold DumpSession.writing
  rw [hlimit, Bool.not_false, Bool.and_true, Bool.and_eq_true, Bool.and_eq_true, Bool.not_eq_true',
    DumpOptions.all_stop, and_assoc]

/-- The values at the start are written. -/
theorem opened_at {now start : Nat} (hstart : o.start = some start) (hattach : attachTime ≤ start)
    (hvalues : s.cur = valuesAfter initial stream) (hdelivered : ∀ x ∈ stream, x.1 ≤ start)
    (hcalled : ∀ p ∈ pauses, p.1 ≤ now) (hpaused : s.paused = pauses.getLast?.any Prod.snd)
    (hunpaused : ∀ t, start ≤ t → pausedAt pauses t = false) (hnow : start ≤ now)
    (hwindow : ∀ stop ∈ o.stop, start ≤ stop) (hstarted : s.started = true)
    (hfile : s.file = [.dump .dumpvars start (s.values o)]) : DumpInv o attachTime initial stream pauses now s := by
  have hopens : o.opens attachTime = start := by
    unfold DumpOptions.opens
    rw [hstart, Option.getD_some, Nat.max_eq_left hattach]
  refine ⟨hvalues, fun x hx => Nat.le_trans (hdelivered x hx) hnow, hcalled, hpaused, Nat.le_trans hattach hnow, ?_,
    fun _ => hopens ▸ hnow, ?_, fun h => ?_⟩
  · intro sec hsec t ht
    rw [hfile] at hsec
    rw [List.mem_singleton.mp hsec] at ht
    obtain rfl := Option.some.inj ht
    exact ⟨Nat.le_of_eq hopens, hwindow⟩
  · intro _ t ht k hk
    have hge : start ≤ t := hopens ▸ ht.1
    have hupTo : (Section.dump .dumpvars start (s.values o)).upTo t = true := decide_eq_true hge
    rw [hfile, ← List.nil_append [_], replay_concat [] hupTo, DumpSession.values, shown_values _ _ _ hk,
      hvalues, display, hunpaused t hge, if_neg Bool.false_ne_true,
      valueAt_last fun x hx => Nat.le_trans (hdelivered x hx) hge]
  · rw [hstarted] at h
    exact Bool.noConfusion h

/-- A session that has just been attached. -/
theorem dumpInv_attach (o : DumpOptions) (attachTime : Nat) (initial : Values)
    (hwindow : (∀ start ∈ o.start, start ≤ attachTime) → ∀ stop ∈ o.stop, attachTime ≤ stop) :
    DumpInv o attachTime initial [] [] attachTime (DumpSession.attach o attachTime initial) := by
  unfold DumpSession.attach
  dsimp only
  by_cases hstarted : (o.start.all fun start => decide (start ≤ attachTime)) = true
  · have hle : ∀ start ∈ o.start, start ≤ attachTime := by
      intro start hstart
      rw [hstart] at hstarted
      exact of_decide_eq_true hstarted
    have hopens : o.opens attachTime = attachTime := by
      unfold DumpOptions.opens
      cases hstart : o.start with
      | none => exact Nat.max_eq_right (Nat.zero_le _)
      | some start => exact Nat.max_eq_right (hle start hstart)
    rw [if_pos hstarted]
    refine ⟨rfl, (fun _ hx => nomatch hx), (fun _ hx => nomatch hx), rfl, Nat.le_refl _, ?_, fun _ => Nat.le_of_eq hopens,
      ?_, fun h => Bool.noConfusion (hstarted.symm.trans h)⟩
    · intro sec hsec t ht
      rw [List.mem_singleton.mp hsec] at ht
      obtain rfl := Option.some.inj ht
      exact ⟨Nat.le_of_eq hopens, hwindow hle⟩
    · intro _ t ht k hk
      have hge : attachTime ≤ t := hopens ▸ ht.1
      refine (congrFun (replay_concat [] ?_) k).trans (shown_values _ _ _ hk)
      exact decide_eq_true hge
  · rw [if_neg hstarted]
    obtain ⟨start, hstart, hlt⟩ : ∃ start, o.start = some start ∧ attachTime < start := by
      cases hstart : o.start with
      | none =>
        rw [hstart] at hstarted
        exact absurd rfl hstarted
      | some start =>
        rw [hstart] at hstarted
        exact ⟨start, rfl, Nat.lt_of_not_le fun hle => hstarted (decide_eq_true hle)⟩
    have hfalse : ¬ (o.start.all fun start => decide (start ≤ attachTime)) = true := hstarted
    exact ⟨rfl, (fun _ hx => nomatch hx), (fun _ hx => nomatch hx), rfl, Nat.le_refl _, (fun _ hx => nomatch hx),
      fun h => absurd h hfalse, fun h => absurd h hfalse,
      fun _ => ⟨rfl, start, hstart, hlt, (fun _ hx => nomatch hx), fun _ _ => rfl⟩⟩

/-! ## A step -/

theorem checkLimit_of_unlimited {s : DumpSession} (h : (s.checkLimit o).limited = false) : s.checkLimit o = s := by
  unfold DumpSession.checkLimit at h ⊢
  split at h
  · exact Bool.noConfusion h
  · next hno => rw [if_neg hno]

theorem writeChanges_spec (time : Nat) (changes : List Change) (s : DumpSession)
    (hlimit : (s.writeChanges o time changes).limited = false) :
    s.limited = false ∧ s.writeChanges o time changes =
      if s.writing o time then { s with file := s.file ++ [.changes time changes] } else s := by
  unfold DumpSession.writeChanges at hlimit ⊢
  split
  · next hwriting =>
    rw [if_pos hwriting] at hlimit
    have heq := checkLimit_of_unlimited hlimit
    rw [heq] at hlimit ⊢
    exact ⟨hlimit, rfl⟩
  · next hno =>
    rw [if_neg hno] at hlimit
    exact ⟨hlimit, rfl⟩

/-! Calls that poll nothing. -/

theorem pause_nil (o : DumpOptions) (now : Nat) (s : DumpSession) : s.pause o now [] =
    { (if s.writing o now then s.writeSection .dumpoff now o.unknown else s) with paused := true } := rfl

theorem resume_nil (o : DumpOptions) (now : Nat) (s : DumpSession) : s.resume o now [] =
    if s.paused && { s with paused := false }.writing o now then
      { s with paused := false }.writeSection .dumpon now (s.values o)
    else { s with paused := false } := rfl

theorem dumpAll_nil (o : DumpOptions) (now : Nat) (s : DumpSession) : s.dumpAll o now [] =
    if s.writing o now then s.writeSection .dumpall now (s.values o) else s := rfl

namespace DumpInv

/-- A delivery to an open window. -/
theorem deliver (hi : DumpInv o attachTime initial stream pauses last s) (hstarted : s.started = true) {time : Nat}
    (hle : last ≤ time) {changes : List Change}
    (hlimit : ({ s with cur := applied changes s.cur }.writeChanges o time changes).limited = false) :
    DumpInv o attachTime initial (stream ++ changes.map fun c => (time, c)) (pauses ++ []) time
      ({ s with cur := applied changes s.cur }.writeChanges o time changes) := by
  obtain ⟨hlimit', heq⟩ := writeChanges_spec time changes { s with cur := applied changes s.cur } hlimit
  have hiff := DumpSession.writing_iff (o := o) (s := { s with cur := applied changes s.cur }) hlimit' (t := time)
  have hnew : ∀ x ∈ changes.map fun c => (time, c), x.1 = time := by
    intro x hx
    obtain ⟨c, -, rfl⟩ := List.mem_map.mp hx
    rfl
  have hcur : applied changes s.cur = valuesAfter initial (stream ++ changes.map fun c => (time, c)) := by
    rw [valuesAfter_delivery, hi.values]
  have hpaused : s.paused = (pauses ++ []).getLast?.any Prod.snd := by
    rw [List.append_nil]
    exact hi.paused
  rw [heq]
  split
  · next hwriting =>
    obtain ⟨-, hpause, hwindow⟩ := hiff.mp hwriting
    change s.paused = false at hpause
    refine hi.extend hstarted hle [.changes time changes] rfl (fun sec hsec => ?_) hnew (fun p hp => nomatch hp)
      hcur hpaused hstarted (fun _ => hwindow) fun _ known hknown => ?_
    · rw [List.mem_singleton.mp hsec]
      rfl
    · unfold DumpSession.face at hknown ⊢
      rw [hpause] at hknown
      change ∀ k < _, _ = some (if s.paused then _ else _)
      rw [hpause]
      exact shown_changes time changes s.cur known hknown
  · next hno =>
    refine hi.extend hstarted hle [] (List.append_nil _).symm (fun sec hsec => nomatch hsec) hnew
      (fun p hp => nomatch hp) hcur hpaused hstarted (fun h => absurd rfl h) fun hwindow known hknown => ?_
    have hpause : s.paused = true := by
      by_contra hne
      exact hno (hiff.mpr ⟨hstarted, by simpa using hne, hwindow⟩)
    unfold DumpSession.face at hknown ⊢
    rw [hpause] at hknown
    change ∀ k < _, _ = some (if s.paused then _ else _)
    rw [hpause]
    exact hknown

/-- A call that changes only whether the session is paused, and writes at most one section. -/
theorem call (hi : DumpInv o attachTime initial stream pauses last s) (hstarted : s.started = true) {now : Nat}
    (hle : last ≤ now) {s' : DumpSession} (secs : List Section) {news : List (Nat × Bool)}
    (hfile : s'.file = s.file ++ secs) (htimes : ∀ sec ∈ secs, sec.time = some now) (hnews : ∀ p ∈ news, p.1 = now)
    (hcur : s'.cur = s.cur) (hpaused : s'.paused = (pauses ++ news).getLast?.any Prod.snd)
    (hstarted' : s'.started = true) (hwindow : secs ≠ [] → ∀ stop ∈ o.stop, now ≤ stop)
    (hshow : (∀ stop ∈ o.stop, now ≤ stop) → ∀ known, (∀ k < o.widths.length, known k = some (s.face o k)) →
      ∀ k < o.widths.length, secs.foldl Section.shown known k = some (s'.face o k)) :
    DumpInv o attachTime initial (stream ++ []) (pauses ++ news) now s' :=
  hi.extend hstarted hle secs hfile htimes (fun x hx => nomatch hx) hnews
    (by rw [hcur, List.append_nil]; exact hi.values) hpaused hstarted' hwindow hshow

theorem pause (hi : DumpInv o attachTime initial stream pauses last s) (hlimit : s.limited = false) {now : Nat}
    (hle : last ≤ now) (hdue : s.due o now = false) :
    DumpInv o attachTime initial (stream ++ []) (pauses ++ [(now, true)]) now (s.pause o now []) := by
  have hiff := DumpSession.writing_iff (o := o) hlimit (t := now)
  have hpaused : true = (pauses ++ [(now, true)]).getLast?.any Prod.snd := by
    rw [List.getLast?_concat]
    rfl
  have hnews : ∀ p ∈ [(now, true)], p.1 = now := by
    intro p hp
    rw [List.mem_singleton.mp hp]
  by_cases hstarted : s.started = true
  · by_cases hwriting : s.writing o now = true
    · obtain ⟨-, hpause, hwindow⟩ := hiff.mp hwriting
      have heq : s.pause o now [] = { s.writeSection .dumpoff now o.unknown with paused := true } := by
        rw [pause_nil, if_pos hwriting]
      rw [heq]
      refine hi.call hstarted hle [.dump .dumpoff now o.unknown] rfl (fun sec hsec => ?_) hnews rfl hpaused hstarted
        (fun _ => hwindow) fun _ known _ k hk => ?_
      · rw [List.mem_singleton.mp hsec]
        rfl
      · refine (shown_unknown .dumpoff now known hk).trans ?_
        change _ = some (if true = true then _ else _)
        rw [if_pos rfl, List.getD_eq_getElem?_getD, List.getElem?_eq_getElem hk, Option.getD_some]
    · have heq : s.pause o now [] = { s with paused := true } := by
        rw [pause_nil, if_neg hwriting]
      rw [heq]
      refine hi.call hstarted hle [] (List.append_nil _).symm (fun sec hsec => nomatch hsec) hnews rfl hpaused hstarted
        (fun h => absurd rfl h) fun hwindow known hknown k hk => ?_
      have hpause : s.paused = true := by
        by_contra hne
        exact hwriting (hiff.mpr ⟨hstarted, by simpa using hne, hwindow⟩)
      refine (hknown k hk).trans ?_
      unfold DumpSession.face
      rw [hpause]
  · have hstarted' : s.started = false := by simpa using hstarted
    obtain ⟨hfile, start, hstart, hattach, hstream, -⟩ := hi.waiting hstarted'
    have hwriting : ¬ s.writing o now = true := fun h => hstarted (hiff.mp h).1
    have heq : s.pause o now [] = { s with paused := true } := by
      rw [pause_nil, if_neg hwriting]
    have hbefore : now < start := by
      unfold DumpSession.due at hdue
      rw [hstarted', hstart] at hdue
      simpa using hdue
    rw [heq, List.append_nil]
    refine ⟨hi.values, fun x hx => Nat.le_trans (hi.delivered x hx) hle, fun p hp => ?_, hpaused,
      Nat.le_trans hi.attached hle, hi.outside, fun h => absurd h hstarted, fun h => absurd h hstarted,
      fun _ => ⟨hfile, start, hstart, hattach, hstream, fun t ht => ?_⟩⟩
    · rcases List.mem_append.mp hp with hp | hp
      · exact Nat.le_trans (hi.called p hp) hle
      · exact Nat.le_of_eq (hnews p hp)
    · unfold pausedAt
      rw [List.filter_append, List.filter_singleton, decide_eq_true (show now ≤ t by omega)]
      simp

theorem resume (hi : DumpInv o attachTime initial stream pauses last s) (hlimit : s.limited = false) {now : Nat}
    (hle : last ≤ now) (hdue : s.due o now = true → s.paused = true → o.start = some now) :
    DumpInv o attachTime initial (stream ++ []) (pauses ++ [(now, false)]) now (s.resume o now []) := by
  have hiff := DumpSession.writing_iff (o := o) (s := { s with paused := false }) hlimit (t := now)
  have hpaused : false = (pauses ++ [(now, false)]).getLast?.any Prod.snd := by
    rw [List.getLast?_concat]
    rfl
  have hnews : ∀ p ∈ [(now, false)], p.1 = now := by
    intro p hp
    rw [List.mem_singleton.mp hp]
  rw [resume_nil]
  by_cases hstarted : s.started = true
  · split
    · next hwriting =>
      rw [Bool.and_eq_true] at hwriting
      obtain ⟨-, -, hwindow⟩ := hiff.mp hwriting.2
      refine hi.call hstarted hle [.dump .dumpon now (s.values o)] rfl (fun sec hsec => ?_) hnews rfl hpaused hstarted
        (fun _ => hwindow) fun _ known _ k hk => shown_values .dumpon now known hk
      rw [List.mem_singleton.mp hsec]
      rfl
    · next hno =>
      refine hi.call hstarted hle [] (List.append_nil _).symm (fun sec hsec => nomatch hsec) hnews rfl hpaused hstarted
        (fun h => absurd rfl h) fun hwindow known hknown k hk => ?_
      have hpause : s.paused = false := by
        by_contra hne
        exact hno (Bool.and_eq_true_iff.mpr ⟨by simpa using hne, hiff.mpr ⟨hstarted, rfl, hwindow⟩⟩)
      refine (hknown k hk).trans ?_
      unfold DumpSession.face
      rw [hpause]
  · have hstarted' : s.started = false := by simpa using hstarted
    obtain ⟨hfile, start, hstart, hattach, hstream, hunpaused⟩ := hi.waiting hstarted'
    rw [if_neg fun h => hstarted (hiff.mp (Bool.and_eq_true_iff.mp h).2).1, List.append_nil]
    refine ⟨hi.values, fun x hx => Nat.le_trans (hi.delivered x hx) hle, fun p hp => ?_, hpaused,
      Nat.le_trans hi.attached hle, hi.outside, fun h => absurd h hstarted, fun h => absurd h hstarted,
      fun _ => ⟨hfile, start, hstart, hattach, hstream, fun t ht => ?_⟩⟩
    · rcases List.mem_append.mp hp with hp | hp
      · exact Nat.le_trans (hi.called p hp) hle
      · exact Nat.le_of_eq (hnews p hp)
    · unfold pausedAt
      rw [List.filter_append, List.filter_singleton]
      by_cases hnow : now ≤ t
      · rw [decide_eq_true hnow]
        simp
      · -- the window is due, so the session is not paused
        have hpause : s.paused = false := by
          by_contra hne
          have hat := hdue (by unfold DumpSession.due; rw [hstarted', hstart]; simp; omega) (by simpa using hne)
          rw [hstart, Option.some.injEq] at hat
          omega
        have ht := hunpaused t ht
        unfold pausedAt at ht
        rw [decide_eq_false hnow, cond_false, List.append_nil, ht, hpause]

theorem dumpAll (hi : DumpInv o attachTime initial stream pauses last s) (hlimit : s.limited = false) {now : Nat}
    (hle : last ≤ now) : DumpInv o attachTime initial (stream ++ []) (pauses ++ []) now (s.dumpAll o now []) := by
  have hiff := DumpSession.writing_iff (o := o) hlimit (t := now)
  have hpaused : s.paused = (pauses ++ []).getLast?.any Prod.snd := by
    rw [List.append_nil]
    exact hi.paused
  rw [dumpAll_nil]
  by_cases hstarted : s.started = true
  · split
    · next hwriting =>
      obtain ⟨-, hpause, hwindow⟩ := hiff.mp hwriting
      refine hi.call hstarted hle [.dump .dumpall now (s.values o)] rfl (fun sec hsec => ?_) (fun p hp => nomatch hp) rfl
        hpaused hstarted (fun _ => hwindow) fun _ known _ k hk => ?_
      · rw [List.mem_singleton.mp hsec]
        rfl
      · refine (shown_values .dumpall now known hk).trans ?_
        change _ = some (if s.paused then _ else _)
        rw [hpause]
        rfl
    · refine hi.call hstarted hle [] (List.append_nil _).symm (fun sec hsec => nomatch hsec) (fun p hp => nomatch hp) rfl
        hpaused hstarted (fun h => absurd rfl h) fun _ known hknown => hknown
  · rw [if_neg fun h => hstarted (hiff.mp h).1, List.append_nil, List.append_nil]
    exact { hi with
      delivered := fun x hx => Nat.le_trans (hi.delivered x hx) hle
      called := fun p hp => Nat.le_trans (hi.called p hp) hle
      attached := Nat.le_trans hi.attached hle
      opened := fun h => absurd h hstarted }

/-- A delivery to a window that is not open. -/
theorem wait (hi : DumpInv o attachTime initial stream pauses last s) (hstarted : s.started = false) {time : Nat}
    (hle : last ≤ time) (hdue : s.due o time = false) (changes : List Change) :
    DumpInv o attachTime initial (stream ++ changes.map fun c => (time, c)) (pauses ++ []) time
      { s with cur := applied changes s.cur } := by
  obtain ⟨hfile, start, hstart, hattach, hstream, hunpaused⟩ := hi.waiting hstarted
  have hbefore : time < start := by
    unfold DumpSession.due at hdue
    rw [hstarted, hstart] at hdue
    simpa using hdue
  have hnew : ∀ x ∈ changes.map fun c => (time, c), x.1 = time := by
    intro x hx
    obtain ⟨c, -, rfl⟩ := List.mem_map.mp hx
    rfl
  have hopen : ¬ s.started = true := by rw [hstarted]; exact Bool.false_ne_true
  rw [List.append_nil]
  refine ⟨?_, fun x hx => ?_, fun p hp => Nat.le_trans (hi.called p hp) hle, hi.paused, Nat.le_trans hi.attached hle,
    hi.outside, fun h => absurd h hopen, fun h => absurd h hopen,
    fun _ => ⟨hfile, start, hstart, hattach, fun x hx => ?_, hunpaused⟩⟩
  · rw [valuesAfter_delivery, ← hi.values]
  · rcases List.mem_append.mp hx with hx | hx
    · exact Nat.le_trans (hi.delivered x hx) hle
    · exact Nat.le_of_eq (hnew x hx)
  · rcases List.mem_append.mp hx with hx | hx
    · exact hstream x hx
    · exact hnew x hx ▸ hbefore

/-- The delivery that opens the window. -/
theorem opening (hi : DumpInv o attachTime initial stream pauses last s) {time : Nat} (hle : last ≤ time)
    (hdue : s.due o time = true) (hopens : Opens o s) {changes : List Change}
    (hlimit : (s.onChanges o time changes).limited = false) :
    DumpInv o attachTime initial (stream ++ changes.map fun c => (time, c)) (pauses ++ []) time
      (s.onChanges o time changes) := by
  have hdue' := hdue
  unfold DumpSession.due at hdue'
  rw [Bool.and_eq_true, Bool.not_eq_true'] at hdue'
  obtain ⟨hfile, start, hstart, hattach, hstream, hunpaused⟩ := hi.waiting hdue'.1
  have hdone : start ≤ time := by
    rw [hstart] at hdue'
    exact of_decide_eq_true hdue'.2
  have hcalled : ∀ p ∈ pauses, p.1 ≤ time := fun p hp => Nat.le_trans (hi.called p hp) hle
  have hnew : ∀ x ∈ stream ++ changes.map fun c => (time, c), x.1 ≤ time := by
    intro x hx
    rcases List.mem_append.mp hx with hx | hx
    · exact Nat.le_trans (hi.delivered x hx) hle
    · obtain ⟨c, -, rfl⟩ := List.mem_map.mp hx
      exact Nat.le_refl _
  have hwindow : ∀ stop ∈ o.stop, start ≤ stop := hopens.2 start hstart
  have hnever : ∀ t, start ≤ t → pausedAt pauses t = false := fun t ht => (hunpaused t ht).trans hopens.1
  unfold DumpSession.onChanges at hlimit ⊢
  rw [if_pos hdue, hstart] at hlimit ⊢
  dsimp only [Option.getD_some] at hlimit ⊢
  by_cases hat : time = start
  · subst hat
    rw [if_neg (Nat.lt_irrefl _), if_pos rfl, List.append_nil]
    refine opened_at hstart (Nat.le_of_lt hattach) ?_ hnew hcalled hi.paused hnever (Nat.le_refl _) hwindow rfl ?_
    · change applied changes s.cur = _
      rw [valuesAfter_delivery, hi.values]
    · change s.file ++ [_] = _
      rw [hfile]
      rfl
  · rw [if_pos (Nat.lt_of_le_of_ne hdone (Ne.symm hat)), if_neg hat] at hlimit ⊢
    have hopened : DumpInv o attachTime initial stream pauses time
        { s.writeSection .dumpvars start (s.values o) with started := true } := by
      refine opened_at hstart (Nat.le_of_lt hattach) hi.values (fun x hx => Nat.le_of_lt (hstream x hx)) hcalled
        hi.paused hnever hdone hwindow rfl ?_
      change s.file ++ [_] = _
      rw [hfile]
      rfl
    exact hopened.deliver rfl (Nat.le_refl _) hlimit

/-- A step keeps the invariant, while nothing has reached the limit. -/
theorem perform (hi : DumpInv o attachTime initial stream pauses last s) (hlimit : s.limited = false) {op : DumpOp}
    (hle : last ≤ op.now) (hP : Unpaused o s op) (hlimit' : (op.perform o s).limited = false) :
    DumpInv o attachTime initial (stream ++ op.stream) (pauses ++ op.pauses) op.now (op.perform o s) := by
  cases op with
  | deliver time changes =>
    by_cases hnil : changes = []
    · subst hnil
      change DumpInv o attachTime initial (stream ++ []) (pauses ++ []) time s
      rw [List.append_nil, List.append_nil]
      exact { hi with
        delivered := fun x hx => Nat.le_trans (hi.delivered x hx) hle
        called := fun p hp => Nat.le_trans (hi.called p hp) hle
        attached := Nat.le_trans hi.attached hle
        opened := fun h => Nat.le_trans (hi.opened h) hle }
    · have heq : (DumpOp.deliver time changes).perform o s = s.onChanges o time changes := if_neg hnil
      rw [heq] at hlimit' ⊢
      by_cases hdue : s.due o time = true
      · exact hi.opening hle hdue (hP hnil hdue) hlimit'
      · have hnotdue : s.due o time = false := by simpa using hdue
        have heq' : s.onChanges o time changes = { s with cur := applied changes s.cur }.writeChanges o time changes :=
          if_neg hdue
        rw [heq'] at hlimit' ⊢
        by_cases hstarted : s.started = true
        · exact hi.deliver hstarted hle hlimit'
        · have hstarted' : s.started = false := by simpa using hstarted
          have hwrite : { s with cur := applied changes s.cur }.writeChanges o time changes =
              { s with cur := applied changes s.cur } := by
            unfold DumpSession.writeChanges DumpSession.writing
            rw [hstarted']
            rfl
          rw [hwrite]
          exact hi.wait hstarted' hle hnotdue changes
  | pause now => exact hi.pause hlimit hle hP
  | resume now => exact hi.resume hlimit hle hP
  | dumpAll now => exact hi.dumpAll hlimit hle

end DumpInv

/-! ## Runs -/

theorem limited_writeChanges (time : Nat) (changes : List Change) (s : DumpSession) (h : s.limited = true) :
    (s.writeChanges o time changes).limited = true := by
  unfold DumpSession.writeChanges DumpSession.writing
  rw [h, Bool.not_true, Bool.and_false, Bool.false_and, if_neg Bool.false_ne_true]
  exact h

/-- A session that has reached the limit stays so. -/
theorem limited_perform (o : DumpOptions) (op : DumpOp) (s : DumpSession) (h : s.limited = true) :
    (op.perform o s).limited = true := by
  cases op with
  | deliver time changes =>
    change (s.dispatch o time changes).limited = true
    unfold DumpSession.dispatch
    split
    · exact h
    · unfold DumpSession.onChanges
      dsimp only
      split
      · split
        · split <;> exact h
        · refine limited_writeChanges time changes _ ?_
          split <;> exact h
      · exact limited_writeChanges time changes _ h
  | pause now =>
    change (s.pause o now []).limited = true
    rw [pause_nil]
    dsimp only
    split <;> exact h
  | resume now =>
    change (s.resume o now []).limited = true
    rw [resume_nil]
    split <;> exact h
  | dumpAll now =>
    change (s.dumpAll o now []).limited = true
    rw [dumpAll_nil]
    split <;> exact h

theorem closed_perform (o : DumpOptions) (op : DumpOp) (s : DumpSession) (h : s.closed = false) :
    (op.perform o s).closed = false := by
  have hwrite : ∀ (time : Nat) (changes : List Change) (s : DumpSession), s.closed = false →
      (s.writeChanges o time changes).closed = false := by
    intro time changes s h
    unfold DumpSession.writeChanges DumpSession.checkLimit
    split
    · split <;> exact h
    · exact h
  cases op with
  | deliver time changes =>
    change (s.dispatch o time changes).closed = false
    unfold DumpSession.dispatch
    split
    · exact h
    · unfold DumpSession.onChanges
      dsimp only
      split
      · split
        · split <;> exact h
        · refine hwrite time changes _ ?_
          split <;> exact h
      · exact hwrite time changes _ h
  | pause now =>
    change (s.pause o now []).closed = false
    rw [pause_nil]
    dsimp only
    split <;> exact h
  | resume now =>
    change (s.resume o now []).closed = false
    rw [resume_nil]
    split <;> exact h
  | dumpAll now =>
    change (s.dumpAll o now []).closed = false
    rw [dumpAll_nil]
    split <;> exact h

/-- Where the session is never paused while its window is to be opened, and the window does not end before it
starts, the file shows the values inside the window, and x while the session is paused. -/
theorem shows_close (o : DumpOptions) (attachTime : Nat) (initial : Values)
    (hwindow : (∀ start ∈ o.start, start ≤ attachTime) → ∀ stop ∈ o.stop, attachTime ≤ stop) (s : DumpSession)
    (stream : List (Nat × Change)) (pauses : List (Nat × Bool)) (last : Nat)
    (hrun : DumpRun o (Unpaused o) attachTime initial s stream pauses last) (hlimit : s.limited = false) (now : Nat)
    (hle : last ≤ now) (hclose : s.due o now = true → Opens o s) :
    Shows o attachTime initial stream pauses now (s.close o now []).file := by
  have hinv : s.closed = false ∧ (s.limited = false → DumpInv o attachTime initial stream pauses last s) := by
    clear hle hclose hlimit
    induction hrun with
    | attach =>
        refine ⟨?_, fun _ => dumpInv_attach o attachTime initial hwindow⟩
        unfold DumpSession.attach
        dsimp only
        split <;> rfl
    | @step s stream pauses last _ op hop hP ih =>
        refine ⟨closed_perform o op s ih.1, fun hlimit' => ?_⟩
        have hlimit : s.limited = false := by
          by_contra hne
          rw [limited_perform o op s (by simpa using hne)] at hlimit'
          exact Bool.noConfusion hlimit'
        exact (ih.2 hlimit).perform hlimit hop hP hlimit'
  obtain ⟨hclosed, hinv⟩ := hinv
  have hi := hinv hlimit
  have hfile : (s.close o now []).file =
      (if s.due o now then s.writeSection .dumpvars (o.start.getD 0) (s.values o) else s).file := by
    unfold DumpSession.close
    rw [if_neg (by rw [hclosed]; exact Bool.false_ne_true)]
    rfl
  rw [hfile]
  by_cases hdue : s.due o now = true
  · have hdue' := hdue
    unfold DumpSession.due at hdue'
    rw [Bool.and_eq_true, Bool.not_eq_true'] at hdue'
    obtain ⟨hnil, start, hstart, hattach, hstream, hunpaused⟩ := hi.waiting hdue'.1
    have hdone : start ≤ now := by
      rw [hstart] at hdue'
      exact of_decide_eq_true hdue'.2
    obtain ⟨hpause, hstop⟩ := hclose hdue
    have hopened : DumpInv o attachTime initial stream pauses now
        { s.writeSection .dumpvars start (s.values o) with started := true } := by
      refine opened_at hstart (Nat.le_of_lt hattach) hi.values (fun x hx => Nat.le_of_lt (hstream x hx))
        (fun p hp => Nat.le_trans (hi.called p hp) hle) hi.paused (fun t ht => (hunpaused t ht).trans hpause) hdone
        (hstop start hstart) rfl ?_
      change s.file ++ [_] = _
      rw [hnil]
      rfl
    rw [if_pos hdue, hstart]
    exact ⟨fun t ht _ => hopened.shows rfl t ht, hopened.outside⟩
  · rw [if_neg hdue]
    refine ⟨fun t ht hnow k hk => ?_, hi.outside⟩
    by_cases hstarted : s.started = true
    · exact hi.shows hstarted t ht k hk
    · have hstarted' : s.started = false := by simpa using hstarted
      obtain ⟨-, start, hstart, -, -, -⟩ := hi.waiting hstarted'
      have hge : start ≤ t := by
        have := ht.1
        unfold DumpOptions.opens at this
        rw [hstart, Option.getD_some] at this
        omega
      refine absurd ?_ hdue
      unfold DumpSession.due
      rw [hstarted', hstart]
      exact decide_eq_true (Nat.le_trans hge hnow)

/-- One signal of one bit, dumped from time 5 to time 20. -/
def windowed : DumpOptions := ⟨[1], some 5, some 20, none, List.length⟩

/-- The signal at first. -/
def cleared : Values := fun _ => (0, 0)

/-- A session that is paused inside its window. -/
theorem shows_close_paused : ∃ s stream pauses, DumpRun windowed (Unpaused windowed) 0 cleared s stream pauses 12 ∧
    Shows windowed 0 cleared stream pauses 15 (s.close windowed 15 []).file ∧
      replay (s.close windowed 15 []).file 7 0 = some (1, 0) ∧
      replay (s.close windowed 15 []).file 10 0 = some (0, 1) := by
  have h0 : DumpRun windowed (Unpaused windowed) 0 cleared _ _ _ _ := DumpRun.attach
  have h1 := h0.step (.deliver 6 [⟨0, (1, 0)⟩]) (by decide) fun _ _ => ⟨rfl, by decide⟩
  have h2 := h1.step (.pause 8) (by decide) rfl
  have h3 := h2.step (.resume 12) (by decide) fun h => absurd h (by decide)
  exact ⟨_, _, _, h3, shows_close windowed 0 cleared (by decide) _ _ _ _ h3 rfl 15 (by decide)
    fun h => absurd h (by decide), by decide, by decide⟩

/-- A session that is paused before its window opens writes values. -/
theorem paused_opens :
    ¬ ∀ (o : DumpOptions) (attachTime : Nat) (initial : Values) (s : DumpSession) (stream : List (Nat × Change))
        (pauses : List (Nat × Bool)) (last : Nat),
      DumpRun o (fun _ _ => True) attachTime initial s stream pauses last → s.limited = false → ∀ now, last ≤ now →
      Shows o attachTime initial stream pauses now (s.close o now []).file := by
  intro h
  have h0 : DumpRun windowed (fun _ _ => True) 0 cleared _ _ _ _ := DumpRun.attach
  have h1 := h0.step (.pause 2) (by decide) trivial
  have h2 := h1.step (.deliver 6 [⟨0, (1, 0)⟩]) (by decide) trivial
  exact absurd ((h _ _ _ _ _ _ _ h2 rfl 15 (by decide)).inside 7 ⟨by decide, by decide⟩ (by decide) 0 (by decide))
    (by decide)

end Veriforge.Trace

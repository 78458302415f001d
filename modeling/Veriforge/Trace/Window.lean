import Mathlib.Data.List.Induction
import Mathlib.Data.List.TakeWhile
import Mathlib.Tactic.ByContra
import Veriforge.Runs
import Veriforge.Trace.Capture

/-! # What a capture file holds

The ring of a session holds the end of the history of traced changes, each with the value before it. As
long as nothing later than the start of a window has been dropped from it, undoing it gives the values at
the start. -/

namespace Veriforge.Trace

/-! ## The window of a stream -/

section Spec

variable (o : Options)

/-- The changes of traced signals. -/
def traced (stream : List (Nat × Change)) : List (Nat × Change) := stream.filter fun x => x.2.signal < o.vcd

/-- The changes of some blocks. -/
def flat (blocks : List (Nat × List Change)) : List (Nat × Change) :=
  blocks.flatMap fun b => b.2.map fun c => (b.1, c)

/-- A capture holds its window: it starts with the value that every traced signal has at its start, and
has the traced changes after that until its end. -/
structure Exact (attachTime : Nat) (cur : Values) (stream : List (Nat × Change)) (C : Capture) : Prop where
  start : C.start = max (C.time - o.pre) attachTime
  stop : C.stop = C.time + if C.reason.isFailure then 0 else o.post
  initial : C.initial =
    (List.range o.vcd).map (valuesAfter cur ((traced o stream).filter fun x => x.1 ≤ C.start))
  changes : flat C.blocks = (traced o stream).filter fun x => C.start < x.1 ∧ x.1 ≤ C.stop

end Spec

/-! ## The ring -/

/-- A history of traced changes, in order of time, each with the value before it. -/
def History (vcd : Nat) (cur : Values) : List Recorded → Prop :=
  EachStep fun before r =>
    r.signal < vcd ∧ r.old = valuesAfter cur (before.map Recorded.change) r.signal ∧ ∀ x ∈ before, x.time ≤ r.time

variable {o : Options} {vcd attachTime : Nat} {cur : Values}

theorem history_concat {h : List Recorded} {r : Recorded} :
    History vcd cur (h ++ [r]) ↔ History vcd cur h ∧ r.signal < vcd ∧
      r.old = valuesAfter cur (h.map Recorded.change) r.signal ∧ ∀ x ∈ h, x.time ≤ r.time :=
  eachStep_concat

theorem History.sorted {h : List Recorded} (hh : History vcd cur h) : h.Pairwise fun r r' => r.time ≤ r'.time := by
  induction h using List.reverseRecOn with
  | nil => exact List.Pairwise.nil
  | append_singleton h r ih =>
    obtain ⟨hh, -, -, hlast⟩ := history_concat.mp hh
    rw [List.pairwise_append]
    refine ⟨ih hh, List.pairwise_singleton _ _, fun x hx y hy => ?_⟩
    rw [List.mem_singleton.mp hy]
    exact hlast x hx

/-- A history up to a time. -/
def upTo (t : Nat) (h : List Recorded) : List Recorded := h.filter fun r => decide (r.time ≤ t)

theorem upTo_of_le {t : Nat} {h : List Recorded} (hle : ∀ r ∈ h, r.time ≤ t) : upTo t h = h :=
  List.filter_eq_self.mpr fun r hr => decide_eq_true (hle r hr)

/-- Undoing the ring gives the values at the start, where nothing later than that has been dropped. -/
theorem undo_eq {start : Nat} {dropped : List Recorded} (hdropped : ∀ r ∈ dropped, r.time ≤ start)
    (ring : List Recorded) :
    ∀ state : Values, History vcd cur (dropped ++ ring) →
      (∀ k < vcd, state k = valuesAfter cur ((dropped ++ ring).map Recorded.change) k) →
      ∀ k < vcd, Session.undo start ring.reverse state k =
        valuesAfter cur ((upTo start (dropped ++ ring)).map Recorded.change) k := by
  induction ring using List.reverseRecOn with
  | nil =>
    intro state _ hstate k hk
    rw [List.append_nil] at hstate ⊢
    rw [upTo_of_le hdropped]
    exact hstate k hk
  | append_singleton ring r ih =>
    intro state hh hstate k hk
    rw [← List.append_assoc] at hh hstate ⊢
    obtain ⟨hbefore, -, hold, hlast⟩ := history_concat.mp hh
    rw [List.reverse_append, List.reverse_singleton, List.singleton_append, Session.undo]
    by_cases hr : r.time ≤ start
    · rw [if_pos hr, hstate k hk, upTo_of_le]
      intro x hx
      rcases List.mem_append.mp hx with hx | hx
      · exact Nat.le_trans (hlast x hx) hr
      · rw [List.mem_singleton.mp hx]
        exact hr
    · have hupTo : upTo start (dropped ++ ring ++ [r]) = upTo start (dropped ++ ring) := by
        unfold upTo
        rw [List.filter_append, List.filter_singleton, decide_eq_false hr]
        simp
      rw [if_neg hr, hupTo]
      refine ih _ hbefore (fun j hj => ?_) k hk
      by_cases hjr : j = r.signal
      · rw [hjr, Function.update_self, hold]
      · rw [Function.update_of_ne hjr, hstate j hj, List.map_append, List.map_singleton, valuesAfter_concat]
        exact Function.update_of_ne hjr _ _

/-- A window of a history. -/
def window (start stop : Nat) (h : List Recorded) : List (Nat × Change) :=
  (h.filter fun r => decide (start < r.time ∧ r.time ≤ stop)).map Recorded.change

theorem flat_concat (blocks : List (Nat × List Change)) (t : Nat) (block : List Change) :
    flat (blocks ++ [(t, block)]) = flat blocks ++ block.map fun c => (t, c) := by
  unfold flat
  rw [List.flatMap_append, List.flatMap_singleton]

/-- The blocks written from the ring are its window. -/
theorem flat_blocksOf (start stop : Nat) (ring : List Recorded) :
    ∀ (blocks : List (Nat × List Change)) (blockT : Nat) (block : List Change),
      (ring.Pairwise fun r r' => r.time ≤ r'.time) →
      flat (Session.blocksOf start stop ring blocks blockT block) =
        flat blocks ++ (block.map fun c => (blockT, c)) ++ window start stop ring := by
  -- the open block, at the end
  have hopen : ∀ (blocks : List (Nat × List Change)) (blockT : Nat) (block : List Change),
      flat (if block = [] then blocks else blocks ++ [(blockT, block)]) =
        flat blocks ++ block.map fun c => (blockT, c) := by
    intro blocks blockT block
    split
    · next hnil => rw [hnil, List.map_nil, List.append_nil]
    · exact flat_concat _ _ _
  induction ring with
  | nil =>
    intro blocks blockT block _
    rw [Session.blocksOf, hopen]
    exact (List.append_nil _).symm
  | cons r ring ih =>
    intro blocks blockT block hsorted
    obtain ⟨hfirst, hrest⟩ := List.pairwise_cons.mp hsorted
    rw [Session.blocksOf]
    split
    · next hearly =>
      have hwindow : window start stop (r :: ring) = window start stop ring := by
        unfold window
        rw [List.filter_cons_of_neg (by simp; omega)]
      rw [ih _ _ _ hrest, hwindow]
    · next hearly =>
      split
      · next hlate =>
        have hwindow : window start stop (r :: ring) = [] := by
          unfold window
          rw [List.map_eq_nil_iff, List.filter_eq_nil_iff]
          intro x hx
          rcases List.mem_cons.mp hx with rfl | hx
          · simp; omega
          · have := hfirst x hx
            simp; omega
        rw [hopen, hwindow, List.append_nil]
      · next hlate =>
        have hwindow : window start stop (r :: ring) = r.change :: window start stop ring := by
          unfold window
          rw [List.filter_cons_of_pos (by simp; omega), List.map_cons]
        rw [hwindow]
        split
        · rw [ih _ _ _ hrest, flat_concat, List.map_singleton, List.append_assoc _ [_] _]
          rfl
        · next hsame =>
          have hblock : (block.map fun c => (blockT, c)) = block.map fun c => (r.time, c) := by
            by_cases hnil : block = []
            · rw [hnil]; rfl
            · rw [show r.time = blockT by by_contra hne; exact hsame ⟨hne, hnil⟩]
          rw [ih _ _ _ hrest, List.map_append, hblock, List.map_singleton, ← List.append_assoc,
            List.append_assoc _ [_] _]
          rfl

/-! ## What a session keeps -/

/-- A session, the stream delivered to it until `last`, the history of it and what has been dropped. -/
structure Inv (o : Options) (attachTime : Nat) (cur : Values) (stream : List (Nat × Change)) (last : Nat)
    (h dropped : List Recorded) (s : Session) : Prop where
  history : History o.vcd cur h
  delivered : h.map Recorded.change = traced o stream
  recent : ∀ r ∈ h, r.time ≤ last
  ring : h = dropped ++ s.ring
  gone : ∀ r ∈ dropped, r.time + o.pre < last
  values : ∀ k < o.vcd, s.cur k = valuesAfter cur (h.map Recorded.change) k
  attached : s.attachTime = attachTime
  captureEnd : s.captureEnd = s.writer.map Capture.stop
  exact : ∀ C ∈ s.finished ++ s.writer.toList, Exact o attachTime cur stream C

/-- Nothing that a window from `time` needs has been dropped. -/
def Kept (o : Options) (attachTime : Nat) (dropped : List (Nat × Change)) (time : Nat) : Prop :=
  ∀ x ∈ dropped, x.1 ≤ max (time - o.pre) attachTime

/-- If a capture is started, then with its window. -/
def Covered (o : Options) (dropped : List (Nat × Change)) (time : Nat) (s : Session) : Prop :=
  s.canStart o = true → Kept o s.attachTime dropped time

/-- The captures that `_take_pending` starts are started with their windows. -/
def TakeCovered (o : Options) (dropped : List (Nat × Change)) (upto : Nat) (fatalAtUpto : Bool) :
    List Event → Session → Prop
  | [], _ => True
  | e :: queue, s =>
      if upto < e.time ∨ (e.time = upto ∧ e.severity = .fatal ∧ fatalAtUpto = false) then True
      else
        Covered o dropped e.time (if s.expired e.time then s.finishCapture else s) ∧
          TakeCovered o dropped upto fatalAtUpto queue (s.act o e)

instance (o : Options) (attachTime : Nat) (dropped : List (Nat × Change)) (time : Nat) :
    Decidable (Kept o attachTime dropped time) :=
  inferInstanceAs (Decidable (∀ x ∈ dropped, x.1 ≤ max (time - o.pre) attachTime))

instance (o : Options) (dropped : List (Nat × Change)) (time : Nat) (s : Session) :
    Decidable (Covered o dropped time s) :=
  inferInstanceAs (Decidable (_ → _))

instance decidableTakeCovered (o : Options) (dropped : List (Nat × Change)) (upto : Nat) (fatalAtUpto : Bool) :
    (events : List Event) → (s : Session) → Decidable (TakeCovered o dropped upto fatalAtUpto events s)
  | [], _ => inferInstanceAs (Decidable True)
  | e :: queue, s =>
      have := decidableTakeCovered o dropped upto fatalAtUpto queue (s.act o e)
      inferInstanceAs (Decidable (ite (upto < e.time ∨ (e.time = upto ∧ e.severity = .fatal ∧ fatalAtUpto = false))
        True (_ ∧ TakeCovered o dropped upto fatalAtUpto queue (s.act o e))))

namespace Inv

variable {stream : List (Nat × Change)} {last : Nat} {h dropped : List Recorded} {s : Session}

theorem attach (time : Nat) (cur : Values) : Inv o time cur [] time [] [] (Session.attach o time cur) where
  history := eachStep_nil
  delivered := rfl
  recent _ hr := nomatch hr
  ring := rfl
  gone _ hr := nomatch hr
  values _ _ := rfl
  attached := rfl
  captureEnd := rfl
  exact _ hC := nomatch hC

theorem mono (hi : Inv o attachTime cur stream last h dropped s) {last' : Nat} (hle : last ≤ last') :
    Inv o attachTime cur stream last' h dropped s :=
  { hi with
    recent := fun r hr => Nat.le_trans (hi.recent r hr) hle
    gone := fun r hr => Nat.lt_of_lt_of_le (hi.gone r hr) hle }

theorem finish (hi : Inv o attachTime cur stream last h dropped s) :
    Inv o attachTime cur stream last h dropped s.finishCapture :=
  { hi with
    captureEnd := rfl
    exact := fun C hC => by
      unfold Session.finishCapture at hC
      rw [Option.toList_none, List.append_nil] at hC
      exact hi.exact C hC }

/-- A capture that is started holds its window. -/
theorem start (hi : Inv o attachTime cur stream last h dropped s) {time : Nat}
    (hkept : Kept o attachTime (dropped.map Recorded.change) time) {reason : Reason} {post : Nat}
    (hpost : post = if reason.isFailure then 0 else o.post) :
    Inv o attachTime cur stream last h dropped (s.startCapture o time reason post) := by
  have hdropped : ∀ r ∈ dropped, r.time ≤ max (time - o.pre) s.attachTime := by
    intro r hr
    rw [hi.attached]
    exact hkept _ (List.mem_map_of_mem hr)
  refine { hi with captureEnd := rfl, exact := fun C hC => ?_ }
  rcases List.mem_append.mp hC with hC | hC
  · exact hi.exact C (List.mem_append_left _ hC)
  obtain rfl := List.mem_singleton.mp hC
  have hfilter : ∀ (p : Nat → Bool), ((traced o stream).filter fun x => p x.1) =
      (h.filter fun r => p r.time).map Recorded.change := by
    intro p
    rw [← hi.delivered, List.filter_map]
    rfl
  refine ⟨by rw [← hi.attached], by rw [← hpost], ?_, ?_⟩
  · refine List.map_congr_left fun k hk => ?_
    have hundo := undo_eq hdropped s.ring s.cur (hi.ring ▸ hi.history) (hi.ring ▸ hi.values) k (List.mem_range.mp hk)
    rw [← hi.ring] at hundo
    rw [hundo]
    exact congrArg (fun changes => valuesAfter cur changes k) (hfilter fun t => decide (t ≤ _)).symm
  · have hsorted : s.ring.Pairwise fun r r' => r.time ≤ r'.time := by
      have := hi.history.sorted
      rw [hi.ring, List.pairwise_append] at this
      exact this.2.1
    have hgone : (dropped.filter fun r =>
        decide (max (time - o.pre) s.attachTime < r.time ∧ r.time ≤ time + post)) = [] := by
      rw [List.filter_eq_nil_iff]
      intro r hr hin
      exact absurd (hdropped r hr) (Nat.not_le_of_gt (of_decide_eq_true hin).1)
    refine (flat_blocksOf _ _ s.ring [] _ [] hsorted).trans ?_
    refine Eq.trans ?_ (hfilter fun t => decide (max (time - o.pre) s.attachTime < t ∧ t ≤ time + post)).symm
    rw [hi.ring, List.filter_append, hgone]
    rfl

theorem pending (hi : Inv o attachTime cur stream last h dropped s) (pending : List Event) :
    Inv o attachTime cur stream last h dropped { s with pending := pending } :=
  { hi with }

theorem finishExpired (hi : Inv o attachTime cur stream last h dropped s) (time : Nat) :
    Inv o attachTime cur stream last h dropped (if s.expired time then s.finishCapture else s) := by
  split
  · exact hi.finish
  · exact hi

/-- A failure starts a capture and ends it, or ends the open one. -/
theorem failAt (hi : Inv o attachTime cur stream last h dropped s) {time : Nat}
    (hcovered : Covered o (dropped.map Recorded.change) time s) {reason : Reason} (hreason : reason.isFailure = true) :
    Inv o attachTime cur stream last h dropped (s.failAt o time reason) := by
  unfold Session.failAt
  split
  · next hwriter =>
    split
    · exact hi
    · next hfiles =>
      have hcan : s.canStart o = true := by
        unfold Session.canStart
        rw [hwriter, decide_eq_true (Nat.lt_of_not_le hfiles)]
        rfl
      exact (hi.start (hi.attached ▸ hcovered hcan) (by rw [hreason]; rfl)).finish
  · next capture hwriter =>
    have hexact : Exact o attachTime cur stream capture :=
      hi.exact capture (List.mem_append_right _ (by rw [hwriter]; exact List.mem_singleton.mpr rfl))
    refine finish { hi with captureEnd := by rw [hi.captureEnd, hwriter]; rfl, exact := fun C hC => ?_ }
    rcases List.mem_append.mp hC with hC | hC
    · exact hi.exact C (List.mem_append_left _ hC)
    · rw [List.mem_singleton.mp hC]
      exact ⟨hexact.start, hexact.stop, hexact.initial, hexact.changes⟩

theorem startIf (hi : Inv o attachTime cur stream last h dropped s) {time : Nat}
    (hcovered : Covered o (dropped.map Recorded.change) time s) {reason : Reason} (hreason : reason.isFailure = false) :
    Inv o attachTime cur stream last h dropped
      (if s.canStart o then s.startCapture o time reason o.post else s) := by
  split
  · next hcan => exact hi.start (hi.attached ▸ hcovered hcan) (by rw [hreason]; rfl)
  · exact hi

theorem act (hi : Inv o attachTime cur stream last h dropped s) {e : Event}
    (hcovered : Covered o (dropped.map Recorded.change) e.time (if s.expired e.time then s.finishCapture else s)) :
    Inv o attachTime cur stream last h dropped (s.act o e) := by
  have hi' := hi.finishExpired e.time
  unfold Session.act
  dsimp only
  generalize (if s.expired e.time then s.finishCapture else s) = s' at hi' hcovered ⊢
  split
  · exact hi'.failAt hcovered rfl
  · exact hi'.startIf hcovered rfl

theorem takeEvents (upto : Nat) (fatalAtUpto : Bool) (events : List Event) :
    ∀ s : Session, Inv o attachTime cur stream last h dropped s →
      TakeCovered o (dropped.map Recorded.change) upto fatalAtUpto events s →
      Inv o attachTime cur stream last h dropped (s.takeEvents o upto fatalAtUpto events) := by
  induction events with
  | nil => exact fun s hi _ => hi.pending []
  | cons e events ih =>
    intro s hi hcovered
    rw [TakeCovered] at hcovered
    rw [Session.takeEvents]
    split
    · exact hi.pending _
    · next hnow =>
      rw [if_neg hnow] at hcovered
      exact ih _ (hi.act hcovered.1) hcovered.2

/-- Nothing is dropped of what a window from now needs. -/
theorem kept (hi : Inv o attachTime cur stream last h dropped s) {time : Nat} (hle : last ≤ time) :
    Kept o attachTime (dropped.map Recorded.change) time := by
  intro x hx
  obtain ⟨r, hr, rfl⟩ := List.mem_map.mp hx
  have := hi.gone r hr
  change r.time ≤ _
  omega

theorem trim (hi : Inv o attachTime cur stream last h dropped s) :
    ∃ dropped', Inv o attachTime cur stream last h dropped' (s.trim o last) := by
  unfold Session.trim
  split
  · exact ⟨dropped, hi⟩
  · refine ⟨dropped ++ s.ring.takeWhile fun r => decide (r.time + o.pre < last), { hi with ring := ?_, gone := ?_ }⟩
    · rw [List.append_assoc, List.takeWhile_append_dropWhile]
      exact hi.ring
    · intro r hr
      rcases List.mem_append.mp hr with hr | hr
      · exact hi.gone r hr
      · have hlt := List.mem_takeWhile_imp hr
        simpa using hlt

end Inv

/-! ## A delivery -/

/-- What a delivery adds to the history. -/
def record (vcd time : Nat) : List Change → Values → List Recorded
  | [], _ => []
  | c :: changes, values =>
      (if c.signal < vcd then [⟨time, c.signal, values c.signal, c.value⟩] else []) ++
        record vcd time changes (Function.update values c.signal c.value)

theorem mem_record {time : Nat} (changes : List Change) :
    ∀ (values : Values), ∀ r ∈ record vcd time changes values, r.time = time := by
  induction changes with
  | nil => exact fun values r hr => nomatch hr
  | cons c changes ih =>
    intro values r hr
    rcases List.mem_append.mp hr with hr | hr
    · split at hr
      · rw [List.mem_singleton.mp hr]
      · exact nomatch hr
    · exact ih _ r hr

theorem map_record (vcd time : Nat) (changes : List Change) : ∀ values : Values,
    (record vcd time changes values).map Recorded.change =
      (changes.filter fun c => c.signal < vcd).map fun c => (time, c) := by
  induction changes with
  | nil => exact fun values => rfl
  | cons c changes ih =>
    intro values
    rw [record, List.map_append, ih]
    by_cases hc : c.signal < vcd
    · rw [if_pos hc, List.filter_cons_of_pos (by simpa using hc)]
      rfl
    · rw [if_neg hc, List.filter_cons_of_neg (by simpa using hc)]
      rfl

/-- The loop over the changes of a delivery. -/
theorem applyChanges_ring (time : Nat) (changes : List Change) (s : Session) : (s.applyChanges o time changes).1 =
      { s with
        cur := changes.foldl (fun values c => Function.update values c.signal c.value) s.cur
        ring := s.ring ++ record o.vcd time changes s.cur } := by
  have hloop : ∀ (changes : List Change) (p : Session × (Nat → Option (Nat × Nat))),
      (changes.foldl (Session.applyChange o time) p).1 = { p.1 with
          cur := changes.foldl (fun values c => Function.update values c.signal c.value) p.1.cur
          ring := p.1.ring ++ record o.vcd time changes p.1.cur } := by
    intro changes
    induction changes with
    | nil =>
      intro p
      rw [record, List.append_nil]
      rfl
    | cons c changes ih =>
      intro p
      rw [List.foldl_cons, ih, List.foldl_cons, record]
      unfold Session.applyChange
      dsimp only
      split
      · rw [List.append_assoc]
      · rw [List.nil_append]
  exact hloop changes _

/-- The history after a delivery, and the values of the traced signals. -/
theorem History.record {time : Nat} (changes : List Change) :
    ∀ (h : List Recorded) (values : Values), History vcd cur h → (∀ r ∈ h, r.time ≤ time) →
      (∀ k < vcd, values k = valuesAfter cur (h.map Recorded.change) k) →
      History vcd cur (h ++ Trace.record vcd time changes values) ∧
        ∀ k < vcd, changes.foldl (fun values c => Function.update values c.signal c.value) values k =
          valuesAfter cur ((h ++ Trace.record vcd time changes values).map Recorded.change) k := by
  induction changes with
  | nil =>
    intro h values hh _ hvalues
    rw [Trace.record, List.append_nil]
    exact ⟨hh, hvalues⟩
  | cons c changes ih =>
    intro h values hh hle hvalues
    rw [Trace.record, List.foldl_cons, ← List.append_assoc]
    by_cases hc : c.signal < vcd
    · rw [if_pos hc]
      refine ih _ _ (history_concat.mpr ⟨hh, hc, hvalues _ hc, hle⟩) (fun r hr => ?_) fun k hk => ?_
      · rcases List.mem_append.mp hr with hr | hr
        · exact hle r hr
        · exact Nat.le_of_eq (congrArg Recorded.time (List.mem_singleton.mp hr))
      · rw [List.map_append, List.map_singleton, valuesAfter_concat]
        change _ = Function.update (valuesAfter cur (h.map Recorded.change)) c.signal c.value k
        by_cases hkc : k = c.signal
        · rw [hkc, Function.update_self, Function.update_self]
        · rw [Function.update_of_ne hkc, Function.update_of_ne hkc, hvalues k hk]
    · rw [if_neg hc, List.append_nil]
      refine ih _ _ hh hle fun k hk => ?_
      rw [Function.update_of_ne (by omega), hvalues k hk]

/-- The traced changes of a delivery. -/
theorem traced_delivery (o : Options) (time : Nat) (changes : List Change) :
    traced o (changes.map fun c => (time, c)) = (changes.filter fun c => c.signal < o.vcd).map fun c => (time, c) := by
  unfold traced
  rw [List.filter_map]
  rfl

theorem traced_append (o : Options) (stream new : List (Nat × Change)) :
    traced o (stream ++ new) = traced o stream ++ traced o new := List.filter_append ..

/-- A file for which the new changes come too late. -/
theorem Exact.extend {stream new : List (Nat × Change)} {C : Capture} (hC : Exact o attachTime cur stream C)
    (hnew : ∀ x ∈ traced o new, C.start < x.1 ∧ C.stop < x.1) : Exact o attachTime cur (stream ++ new) C := by
  have hinitial : ((traced o new).filter fun x => decide (x.1 ≤ C.start)) = [] := by
    rw [List.filter_eq_nil_iff]
    intro x hx hle
    exact absurd (of_decide_eq_true hle) (Nat.not_le_of_gt (hnew x hx).1)
  have hchanges : ((traced o new).filter fun x => decide (C.start < x.1 ∧ x.1 ≤ C.stop)) = [] := by
    rw [List.filter_eq_nil_iff]
    intro x hx hle
    exact absurd (of_decide_eq_true hle).2 (Nat.not_le_of_gt (hnew x hx).2)
  refine ⟨hC.start, hC.stop, ?_, ?_⟩
  · rw [traced_append, List.filter_append, hinitial, List.append_nil]
    exact hC.initial
  · rw [traced_append, List.filter_append, hchanges, List.append_nil]
    exact hC.changes

/-- A file to which the new changes are written. -/
theorem Exact.write {stream new : List (Nat × Change)} {C : Capture} (hC : Exact o attachTime cur stream C)
    (hnew : ∀ x ∈ traced o new, C.start < x.1 ∧ x.1 ≤ C.stop) {blocks : List (Nat × List Change)}
    (hblocks : flat blocks = flat C.blocks ++ traced o new) :
    Exact o attachTime cur (stream ++ new) { C with blocks := blocks } := by
  have hinitial : ((traced o new).filter fun x => decide (x.1 ≤ C.start)) = [] := by
    rw [List.filter_eq_nil_iff]
    intro x hx hle
    exact absurd (of_decide_eq_true hle) (Nat.not_le_of_gt (hnew x hx).1)
  refine ⟨hC.start, hC.stop, ?_, ?_⟩
  · rw [traced_append, List.filter_append, hinitial, List.append_nil]
    exact hC.initial
  · rw [traced_append, List.filter_append, List.filter_eq_self.mpr fun x hx => decide_eq_true (hnew x hx)]
    exact hblocks.trans (congrArg (fun changes => changes ++ traced o new) hC.changes)

/-- No traced change arrives for a file that is finished, or at the start of the open one. -/
def Fresh (o : Options) (time : Nat) (changes : List Change) (s : Session) : Prop :=
  (∃ c ∈ changes, c.signal < o.vcd) →
    (∀ C ∈ s.finished, C.start < time ∧ C.stop < time) ∧ ∀ C ∈ s.writer.toList, C.start < time

instance (o : Options) (time : Nat) (changes : List Change) (s : Session) : Decidable (Fresh o time changes s) :=
  inferInstanceAs (Decidable (_ → _ ∧ _))

namespace Inv

variable {stream : List (Nat × Change)} {last : Nat} {h dropped : List Recorded} {s : Session}

/-- The changes of a delivery are applied, and written to the open file. -/
theorem feed {time : Nat} (hi : Inv o attachTime cur stream time h dropped s) (hopen : s.expired time = false)
    {changes : List Change} (hfresh : Fresh o time changes s) :
    Inv o attachTime cur (stream ++ changes.map fun c => (time, c)) time (h ++ record o.vcd time changes s.cur) dropped
      ((s.applyChanges o time changes).1.writeLive o time changes) := by
  have hmem : ∀ x ∈ traced o (changes.map fun c => (time, c)), x.1 = time ∧ ∃ c ∈ changes, c.signal < o.vcd := by
    intro x hx
    rw [traced_delivery] at hx
    obtain ⟨c, hc, rfl⟩ := List.mem_map.mp hx
    obtain ⟨hc, hlt⟩ := List.mem_filter.mp hc
    exact ⟨rfl, c, hc, of_decide_eq_true hlt⟩
  have hfinished : ∀ C ∈ s.finished, Exact o attachTime cur (stream ++ changes.map fun c => (time, c)) C := by
    intro C hC
    refine (hi.exact C (List.mem_append_left _ hC)).extend fun x hx => ?_
    obtain ⟨htime, hnew⟩ := hmem x hx
    rw [htime]
    exact (hfresh hnew).1 C hC
  have hwriter : ∀ C, s.writer = some C → ∀ x ∈ traced o (changes.map fun c => (time, c)),
      C.start < x.1 ∧ x.1 ≤ C.stop := by
    intro C hC x hx
    obtain ⟨htime, hnew⟩ := hmem x hx
    refine ⟨htime ▸ (hfresh hnew).2 C (Option.mem_toList.mpr hC), ?_⟩
    unfold Session.expired at hopen
    rw [hi.captureEnd, hC] at hopen
    exact htime ▸ Nat.le_of_not_lt (of_decide_eq_false hopen)
  obtain ⟨hhistory, hvalues⟩ := History.record changes h s.cur hi.history hi.recent hi.values
  have happlied : ∀ writer : Option Capture, s.captureEnd = writer.map Capture.stop →
      (∀ C ∈ writer, Exact o attachTime cur (stream ++ changes.map fun c => (time, c)) C) →
      Inv o attachTime cur (stream ++ changes.map fun c => (time, c)) time (h ++ record o.vcd time changes s.cur) dropped
        { s with
          cur := changes.foldl (fun values c => Function.update values c.signal c.value) s.cur
          ring := s.ring ++ record o.vcd time changes s.cur
          writer := writer } := by
    intro writer hend hexact
    refine ⟨hhistory, ?_, ?_, ?_, hi.gone, hvalues, hi.attached, hend, ?_⟩
    · rw [List.map_append, hi.delivered, map_record, traced_append, traced_delivery]
    · intro r hr
      rcases List.mem_append.mp hr with hr | hr
      · exact hi.recent r hr
      · exact Nat.le_of_eq (mem_record changes _ r hr)
    · rw [hi.ring, List.append_assoc]
    · intro C hC
      rcases List.mem_append.mp hC with hC | hC
      · exact hfinished C hC
      · exact hexact C (Option.mem_toList.mp hC)
  rw [applyChanges_ring]
  unfold Session.writeLive
  dsimp only
  cases hw : s.writer with
  | none => exact happlied none (by rw [hi.captureEnd, hw]) fun C hC => nomatch hC
  | some C =>
    have hC : Exact o attachTime cur stream C :=
      hi.exact C (List.mem_append_right _ (by rw [hw]; exact List.mem_singleton.mpr rfl))
    have hend : s.captureEnd = some C.stop := by rw [hi.captureEnd, hw]; rfl
    dsimp only
    split
    · next hnil =>
      refine happlied (some C) hend fun C' hC' => ?_
      obtain rfl := Option.some.inj hC'
      refine hC.extend fun x hx => ?_
      rw [traced_delivery, hnil] at hx
      exact nomatch hx
    · refine happlied (some { C with blocks := _ }) hend fun C' hC' => ?_
      obtain rfl := Option.some.inj hC'
      exact hC.write (hwriter C hw) (by rw [flat_concat, traced_delivery])

theorem expired_opened (time : Nat) (s : Session) : (s.opened o time).expired time = false := by
  unfold Session.opened
  dsimp only
  by_cases hexpired : (s.takePending o time false).expired time = true
  · rw [if_pos hexpired]
    rfl
  · rw [if_neg hexpired]
    simpa using hexpired

/-- A delivery. -/
theorem onChanges (hi : Inv o attachTime cur stream last h dropped s) {time : Nat} (hle : last ≤ time)
    {changes : List Change} (hbefore : TakeCovered o (dropped.map Recorded.change) time false s.pending s)
    (hfresh : Fresh o time changes (s.opened o time))
    (hafter : TakeCovered o (dropped.map Recorded.change) time true (s.fed o time changes).pending
      (s.fed o time changes)) :
    ∃ h' dropped', Inv o attachTime cur (stream ++ changes.map fun c => (time, c)) time h' dropped'
      (s.onChanges o time changes) := by
  have hopened : Inv o attachTime cur stream time h dropped (s.opened o time) :=
    (takeEvents time false s.pending s (hi.mono hle) hbefore).finishExpired time
  have hfed := hopened.feed (expired_opened time s) hfresh
  have hreceived : Inv o attachTime cur (stream ++ changes.map fun c => (time, c)) time
      (h ++ record o.vcd time changes (s.opened o time).cur) dropped (s.receive o time changes) :=
    takeEvents time true _ _ hfed hafter
  have hevaluated : Inv o attachTime cur (stream ++ changes.map fun c => (time, c)) time
      (h ++ record o.vcd time changes (s.opened o time).cur) dropped
      (if o.condition.isSome then { s.receive o time changes with cond := s.seen o time changes }
        else s.receive o time changes) := by
    split
    · exact { hreceived with }
    · exact hreceived
  unfold Session.onChanges
  dsimp only
  generalize (if o.condition.isSome then { s.receive o time changes with cond := s.seen o time changes }
    else s.receive o time changes) = s' at hevaluated ⊢
  refine ⟨h ++ record o.vcd time changes (s.opened o time).cur, ?_⟩
  split
  · exact (hevaluated.start (hevaluated.kept (Nat.le_refl _)) rfl).trim
  · exact hevaluated.trim

end Inv

/-! ## Runs -/

/-- What happens to a session. Where a call polls the hub, what that delivers comes as a delivery of its own
before the call. -/
inductive Op where
  | deliver (time : Nat) (changes : List Change)
  | severity (e : Event)
  | trigger (now : Nat) (reason : String)
  | failure (now exc : Nat) (text : String)
  | close (now : Nat)

namespace Op

def perform (o : Options) (s : Session) : Op → Session
  | .deliver time changes => s.dispatch o time changes
  | .severity e => s.onSeverity o e
  | .trigger now reason => s.trigger o now [] reason
  | .failure now exc text => s.failure o now [] exc text
  | .close now => s.close o now []

/-- What it adds to the stream. -/
def stream : Op → List (Nat × Change)
  | .deliver time changes => changes.map fun c => (time, c)
  | _ => []

/-- The time after it. An event may be reported at any time. -/
def now (last : Nat) : Op → Nat
  | .deliver time _ => time
  | .severity _ => last
  | .trigger now _ => now
  | .failure now _ _ => now
  | .close now => now

end Op

/-- The traced changes of a stream that the ring of a session no longer has. -/
def droppedOf (o : Options) (stream : List (Nat × Change)) (s : Session) : List (Nat × Change) :=
  (traced o stream).take ((traced o stream).length - s.ring.length)

/-- When a capture is started for a queued event, no traced change after its start has been dropped; and no
traced change is delivered at a time that a finished file covers, or at the start of the open one. -/
def Timely (o : Options) (stream : List (Nat × Change)) (s : Session) : Op → Prop
  | .deliver time changes =>
      changes ≠ [] →
        TakeCovered o (droppedOf o stream s) time false s.pending s ∧ Fresh o time changes (s.opened o time) ∧
          TakeCovered o (droppedOf o stream s) time true (s.fed o time changes).pending (s.fed o time changes)
  | .severity _ => True
  | .trigger now _ => TakeCovered o (droppedOf o stream s) now true s.pending s
  | .failure now exc _ =>
      o.onFailure = true → s.failed ≠ some exc →
        TakeCovered o (droppedOf o stream s) now true s.pending { s with failed := some exc }
  | .close now => TakeCovered o (droppedOf o stream s) now true s.pending s

/-- The runs of a session that was attached at a time, with their streams, in which every step meets `P`. The
times of the deliveries do not decrease. -/
inductive Run (o : Options) (P : List (Nat × Change) → Session → Op → Prop) (attachTime : Nat) (cur : Values) :
    Session → List (Nat × Change) → Nat → Prop where
  | attach : Run o P attachTime cur (Session.attach o attachTime cur) [] attachTime
  | step {s : Session} {stream : List (Nat × Change)} {last : Nat} (h : Run o P attachTime cur s stream last) (op : Op)
      (hopen : s.closed = false) (hle : last ≤ op.now last) (hP : P stream s op) :
      Run o P attachTime cur (op.perform o s) (stream ++ op.stream) (op.now last)

namespace Inv

variable {stream : List (Nat × Change)} {last : Nat} {h dropped : List Recorded} {s : Session}

theorem droppedOf_eq (hi : Inv o attachTime cur stream last h dropped s) :
    droppedOf o stream s = dropped.map Recorded.change := by
  unfold droppedOf
  rw [← hi.delivered, hi.ring, List.map_append, List.length_append, List.length_map, List.length_map,
    Nat.add_sub_cancel, List.take_left' (List.length_map _)]

theorem sync (hi : Inv o attachTime cur stream last h dropped s) {now : Nat}
    (hcovered : TakeCovered o (dropped.map Recorded.change) now true s.pending s) :
    Inv o attachTime cur stream last h dropped (s.sync o now []) :=
  takeEvents now true s.pending s hi hcovered

theorem perform (hi : Inv o attachTime cur stream last h dropped s) {op : Op} (hopen : s.closed = false)
    (hle : last ≤ op.now last) (htimely : Timely o stream s op) :
    ∃ h' dropped', Inv o attachTime cur (stream ++ op.stream) (op.now last) h' dropped' (op.perform o s) := by
  cases op with
  | deliver time changes =>
    by_cases hnil : changes = []
    · refine ⟨h, dropped, ?_⟩
      rw [hnil, show (Op.deliver time []).perform o s = s from rfl, show (Op.deliver time []).stream = [] from rfl,
        List.append_nil]
      exact hi.mono hle
    · obtain ⟨hbefore, hfresh, hafter⟩ := htimely hnil
      rw [hi.droppedOf_eq] at hbefore hafter
      rw [show (Op.deliver time changes).perform o s = s.onChanges o time changes from if_neg hnil]
      exact hi.onChanges hle hbefore hfresh hafter
  | severity e =>
    refine ⟨h, dropped, ?_⟩
    rw [show (Op.severity e).stream = [] from rfl, List.append_nil]
    change Inv o attachTime cur stream last h dropped (s.onSeverity o e)
    unfold Session.onSeverity
    split
    · exact hi.pending _
    · exact hi
  | trigger now reason =>
    refine ⟨h, dropped, ?_⟩
    have hcovered : TakeCovered o (droppedOf o stream s) now true s.pending s := htimely
    rw [hi.droppedOf_eq] at hcovered
    rw [show (Op.trigger now reason).stream = [] from rfl, List.append_nil]
    have hsync := (hi.sync hcovered).mono hle
    exact hsync.startIf (fun _ => hsync.attached ▸ hsync.kept (Nat.le_refl _)) rfl
  | failure now exc text =>
    refine ⟨h, dropped, ?_⟩
    rw [show (Op.failure now exc text).stream = [] from rfl, List.append_nil]
    change Inv o attachTime cur stream now h dropped (s.failure o now [] exc text)
    unfold Session.failure
    split
    · exact hi.mono hle
    · next hacts =>
      simp only [not_or, Bool.not_eq_false] at hacts
      have hcovered := htimely hacts.1 hacts.2.2
      rw [hi.droppedOf_eq] at hcovered
      have hi' : Inv o attachTime cur stream last h dropped { s with failed := some exc } := { hi with }
      have hsync := (hi'.sync hcovered).mono hle
      exact hsync.failAt (fun _ => hsync.attached ▸ hsync.kept (Nat.le_refl _)) rfl
  | close now =>
    refine ⟨h, dropped, ?_⟩
    have hcovered : TakeCovered o (droppedOf o stream s) now true s.pending s := htimely
    rw [hi.droppedOf_eq] at hcovered
    rw [show (Op.close now).stream = [] from rfl, List.append_nil]
    change Inv o attachTime cur stream now h dropped (s.close o now [])
    unfold Session.close
    rw [if_neg (by rw [hopen]; exact Bool.false_ne_true)]
    exact { (((hi.sync hcovered).mono hle).finish) with }

end Inv

/-- In a run whose steps are all timely every capture file holds its window. -/
theorem window_of_run (o : Options) (attachTime : Nat) (cur : Values) (s : Session) (stream : List (Nat × Change))
    (last : Nat) (hrun : Run o (Timely o) attachTime cur s stream last) :
    ∀ C ∈ s.finished ++ s.writer.toList, Exact o attachTime cur stream C := by
  have hinv : ∃ h dropped, Inv o attachTime cur stream last h dropped s := by
    induction hrun with
    | attach => exact ⟨[], [], Inv.attach attachTime cur⟩
    | step _ op hopen hle htimely ih =>
        obtain ⟨h, dropped, hi⟩ := ih
        exact hi.perform hopen hle htimely
  obtain ⟨h, dropped, hi⟩ := hinv
  exact hi.exact

/-! A session with one signal, which keeps the changes of two time units. -/

/-- No trigger: captures come from severity events. -/
def severityOptions : Options := ⟨1, 2, 0, 1, true, true, none, ""⟩

/-- The signal at first. -/
def low : Values := fun _ => (0, 0)

/-- An error at time 2 that is reported before anything later is delivered. -/
theorem window_of_run_error : ∃ s stream, Run severityOptions (Timely severityOptions) 0 low s stream 5 ∧
    s.finished.length = 1 ∧ ∀ C ∈ s.finished ++ s.writer.toList, Exact severityOptions 0 low stream C := by
  have h0 : Run severityOptions (Timely severityOptions) 0 low _ _ _ := Run.attach
  have h1 := h0.step (.deliver 1 [⟨0, (1, 0)⟩]) rfl (by decide) (by unfold Timely; decide)
  have h2 := h1.step (.severity ⟨2, .error, "late"⟩) rfl (by decide) trivial
  have h3 := h2.step (.deliver 5 [⟨0, (0, 0)⟩]) rfl (by decide) (by unfold Timely; decide)
  exact ⟨_, _, h3, rfl, window_of_run _ _ _ _ _ _ h3⟩

/-- An error at time 2 that is reported when the changes up to time 10 have been delivered. -/
theorem late_error :
    ¬ ∀ (o : Options) (attachTime : Nat) (cur : Values) (s : Session) (stream : List (Nat × Change)) (last : Nat),
      Run o (fun _ _ _ => True) attachTime cur s stream last →
      ∀ C ∈ s.finished ++ s.writer.toList, Exact o attachTime cur stream C := by
  intro h
  have h0 : Run severityOptions (fun _ _ _ => True) 0 low _ _ _ := Run.attach
  have h1 := h0.step (.deliver 1 [⟨0, (1, 0)⟩]) rfl (by decide) trivial
  have h2 := h1.step (.deliver 10 [⟨0, (0, 0)⟩]) rfl (by decide) trivial
  have h3 := h2.step (.severity ⟨2, .error, "late"⟩) rfl (by decide) trivial
  have h4 := h3.step (.deliver 11 [⟨0, (1, 0)⟩]) rfl (by decide) trivial
  exact absurd (h _ _ _ _ _ _ h4 _ (List.mem_append_left _ (List.mem_singleton.mpr rfl))).initial (by decide)

end Veriforge.Trace

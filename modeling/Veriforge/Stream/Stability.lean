import Veriforge.Runs
import Veriforge.Stream.Axis
import Veriforge.Stream.ReadyValid

/-! # Stability of what a source offers

An item that is offered without READY must be offered again in the next step: this is what the strict mode of
`AXIStreamSink` checks. The sources keep the item, but whether they drive it is asked of the pause attribute in each step
anew. So a source is steady exactly as far as it is not paused while an item waits (`steady_iff`). -/

namespace Veriforge.Stream

open Pipeline (Stage)

variable {ι β ε : Type}

/-! ## What a source holds -/

/-- A source that holds the item it means to offer until it is taken, and drives it where it is not paused. -/
structure Holder (S : SourceEnd ι β ε) where
  current : S.State → Option β
  paused : S.State → Bool
  sampled : S.State → Bool
  current_init : current S.init = none
  send_same : ∀ x s, current (S.send x s) = current s ∧ paused (S.send x s) = paused s ∧
    sampled (S.send x s) = sampled s
  tickPre_spec : ∀ p s s', S.tickPre p s = .ok s' → paused s' = p ∧ S.offer s' = (if p then none else current s') ∧
    ∀ b, current s = some b → current s' = some b
  samplePre_spec : ∀ ready s, S.offer s = (if paused s then none else current s) →
    current (S.samplePre ready s) = current s ∧ paused (S.samplePre ready s) = paused s ∧
      S.offer (S.samplePre ready s) = S.offer s ∧
        sampled (S.samplePre ready s) = ((S.offer s).isSome && (!S.readsReady || ready))
  tickPost_spec : ∀ s, paused (S.tickPost s) = paused s ∧ sampled (S.tickPost s) = sampled s ∧
    current (S.tickPost s) = if !paused s && sampled s then none else current s

/-- `AXIStreamSource` holds its current beat. -/
def AxisSource.holder (I : Interface) (hasTready little : Bool) : Holder (AxisSource.asEnd I hasTready little) where
  current s := (AxisSource.currentBeat s).map I.carry
  paused := pausedThisCycle
  sampled := sampledHandshake
  current_init := rfl
  send_same _ _ := ⟨rfl, rfl, rfl⟩
  tickPre_spec p s s' h := by
    obtain ⟨s₁, hload, h⟩ := ok_of_bind h
    obtain rfl := Except.ok.inj h
    have hsame : s₁.pausedThisCycle = p ∧ s₁.currentBeat = AxisSource.currentBeat s := by
      unfold loadNextFrame at hload
      split at hload
      · obtain ⟨-, -, hload⟩ := ok_of_bind hload
        obtain ⟨beats, -, hload⟩ := ok_of_bind hload
        obtain rfl := Except.ok.inj hload
        exact ⟨rfl, rfl⟩
      · obtain rfl := Except.ok.inj hload
        exact ⟨rfl, rfl⟩
    have hadvance : s₁.advance.pausedThisCycle = p := by
      rw [← hsame.1]
      unfold advance
      split <;> rfl
    refine ⟨hadvance, ?_, fun b hb => ?_⟩
    · change (if s₁.advance.pausedThisCycle then _ else _) = _
      rw [hadvance]
      rfl
    · obtain ⟨beat, hbeat, rfl⟩ := Option.map_eq_some_iff.mp hb
      change s₁.advance.currentBeat.map I.carry = _
      unfold advance
      rw [hsame.2, hbeat]
      change Option.map I.carry s₁.currentBeat = _
      rw [hsame.2, hbeat]
      rfl
  samplePre_spec ready s h := by
    refine ⟨rfl, rfl, rfl, ?_⟩
    change (if _ then false else _) = _
    rw [h]
    cases hp : AxisSource.pausedThisCycle s <;> cases AxisSource.currentBeat s <;> cases hasTready <;> cases ready <;> rfl
  tickPost_spec s := by
    change AxisSource.pausedThisCycle (AxisSource.tickPost s) = _ ∧
      AxisSource.sampledHandshake (AxisSource.tickPost s) = _ ∧
      Option.map I.carry (AxisSource.currentBeat (AxisSource.tickPost s)) = _
    unfold tickPost
    cases hp : AxisSource.pausedThisCycle s <;> cases hc : AxisSource.currentBeat s <;>
      cases hs : AxisSource.sampledHandshake s <;> simp [hp, hc, hs]

/-- `StreamSource` holds its current item. -/
def StreamSource.holder (B : Bundle) : Holder (StreamSource.asEnd B) where
  current s := (StreamSource.current s).map B.carry
  paused := pausedThisCycle
  sampled := sampledHandshake
  current_init := rfl
  send_same _ _ := ⟨rfl, rfl, rfl⟩
  tickPre_spec p s s' h := by
    obtain rfl := Except.ok.inj h
    have hadvance : ({ (s : StreamSource) with pausedThisCycle := p } : StreamSource).advance.pausedThisCycle = p := by
      unfold advance
      split <;> rfl
    refine ⟨hadvance, ?_, fun b hb => ?_⟩
    · change (if StreamSource.pausedThisCycle _ then _ else _) = _
      rw [hadvance]
      rfl
    · obtain ⟨item, hitem, rfl⟩ := Option.map_eq_some_iff.mp hb
      change ({ (s : StreamSource) with pausedThisCycle := p } : StreamSource).advance.current.map B.carry = _
      unfold advance
      rw [hitem]
      change Option.map B.carry (StreamSource.current s) = _
      rw [hitem]
      rfl
  samplePre_spec ready s h := by
    refine ⟨rfl, rfl, rfl, ?_⟩
    change (if _ then false else _) = _
    rw [h]
    cases hp : StreamSource.pausedThisCycle s <;> cases StreamSource.current s <;> cases ready <;> rfl
  tickPost_spec s := by
    change StreamSource.pausedThisCycle (StreamSource.tickPost s) = _ ∧
      StreamSource.sampledHandshake (StreamSource.tickPost s) = _ ∧
        Option.map B.carry (StreamSource.current (StreamSource.tickPost s)) = _
    unfold tickPost
    cases hp : StreamSource.pausedThisCycle s <;> cases hc : StreamSource.current s <;>
      cases hs : StreamSource.sampledHandshake s <;> simp [hp, hc, hs]

/-! ## Runs of a source -/

/-- A step of a source: what has been sent before it, whether the source is paused in it, READY when it is sampled, and
whether it ends with a rising edge of the source's clock. -/
structure Turn (ι : Type) where
  sends : List ι
  paused : Bool
  ready : Bool
  rises : Bool

/-- What is seen of a source in a step, READY high where it has none. -/
structure Shown (β : Type) where
  offer : Option β
  ready : Bool

/-- The source, and what has been seen of it. -/
structure Watched (S : SourceEnd ι β ε) where
  state : S.State
  shown : List (Shown β)

section

variable {S : SourceEnd ι β ε}

/-- What is sent before a step. -/
def sendAll (xs : List ι) (s : S.State) : S.State := xs.foldl (fun s x => S.send x s) s

/-- One step. -/
def Watched.turn (w : Watched S) (t : Turn ι) : Except ε (Watched S) :=
  (S.tickPre t.paused (sendAll t.sends w.state)).bind fun s =>
    let sampled := S.samplePre t.ready s
    .ok ⟨if t.rises then S.tickPost sampled else sampled, w.shown ++ [⟨S.offer s, !S.readsReady || t.ready⟩]⟩

/-- A run from the start. -/
def Watched.run (S : SourceEnd ι β ε) (ts : List (Turn ι)) : Except ε (Watched S) :=
  ts.foldlM Watched.turn ⟨S.init, []⟩

theorem Watched.run_concat (ts : List (Turn ι)) (t : Turn ι) :
    Watched.run S (ts ++ [t]) = (Watched.run S ts).bind fun w => w.turn t := by
  rw [Watched.run, foldlM_concat]
  rfl

/-- What was offered in a step without READY is offered in the next one, as far as `same` looks. -/
def Steady (same : β → β → Prop) (shown : List (Shown β)) : Prop :=
  ∀ k b x, shown[k]? = some ⟨some b, false⟩ → shown[k + 1]? = some x → ∃ b', x.offer = some b' ∧ same b b'

theorem steady_concat {same : β → β → Prop} {xs : List (Shown β)} {x : Shown β} : Steady same (xs ++ [x]) ↔
      Steady same xs ∧ ∀ b, xs.getLast? = some ⟨some b, false⟩ → ∃ b', x.offer = some b' ∧ same b b' := by
  constructor
  · intro h
    refine ⟨fun k b y hk hy => ?_, fun b hb => ?_⟩
    · have hlt := (List.getElem?_eq_some_iff.mp hy).1
      refine h k b y ?_ ?_
      · rw [List.getElem?_append_left (Nat.lt_of_succ_lt hlt)]
        exact hk
      · rw [List.getElem?_append_left hlt]
        exact hy
    · obtain ⟨ys, rfl⟩ := List.getLast?_eq_some_iff.mp hb
      refine h ys.length b x ?_ ?_
      · rw [List.append_assoc, List.singleton_append]
        simp
      · simp
  · rintro ⟨h, hlast⟩ k b y hk hy
    have hlt := (List.getElem?_eq_some_iff.mp hy).1
    rw [List.length_append, List.length_singleton] at hlt
    rw [List.getElem?_append_left (by omega)] at hk
    rcases Nat.lt_or_ge (k + 1) xs.length with hk' | hk'
    · rw [List.getElem?_append_left hk'] at hy
      exact h k b y hk hy
    · have hlen : xs.length = k + 1 := by omega
      rw [← hlen, List.getElem?_concat_length, Option.some.injEq] at hy
      subst hy
      refine hlast b ?_
      rw [List.getLast?_eq_getElem?, hlen, Nat.add_sub_cancel]
      exact hk

namespace Holder

variable (H : Holder S)

/-- An item has been offered and not been taken. -/
def Waiting (s : S.State) : Prop := H.paused s = false ∧ H.sampled s = false ∧ (H.current s).isSome = true

instance (s : S.State) : Decidable (H.Waiting s) := inferInstanceAs (Decidable (_ ∧ _ ∧ _))

/-- The source is paused while an item waits. (Where `tick_pre` raises, nothing is driven.) -/
def Withdraws (s : S.State) (sends : List ι) (paused : Bool) : Prop :=
  H.Waiting s ∧ paused = true ∧ ∃ s', S.tickPre paused (sendAll sends s) = .ok s'

theorem sendAll_same (xs : List ι) (s : S.State) : H.current (sendAll xs s) = H.current s ∧
    H.paused (sendAll xs s) = H.paused s ∧ H.sampled (sendAll xs s) = H.sampled s := by
  unfold sendAll
  induction xs generalizing s with
  | nil => exact ⟨rfl, rfl, rfl⟩
  | cons x xs ih =>
    obtain ⟨hc, hp, hs⟩ := ih (S.send x s)
    obtain ⟨hc', hp', hs'⟩ := H.send_same x s
    rw [List.foldl_cons]
    exact ⟨hc.trans hc', hp.trans hp', hs.trans hs'⟩

/-- What `tick_pre` drives: the item that is held, or nothing where the source is paused. -/
theorem offer_tickPre {s s' : S.State} {sends : List ι} {paused : Bool}
    (h : S.tickPre paused (sendAll sends s) = .ok s') :
    S.offer s' = (if H.paused s' then none else H.current s') ∧ H.paused s' = paused ∧
      ∀ b, H.current s = some b → H.current s' = some b := by
  obtain ⟨hp, ho, hc⟩ := H.tickPre_spec paused _ s' h
  refine ⟨hp ▸ ho, hp, fun b hb => hc b ?_⟩
  rw [(H.sendAll_same sends s).1, hb]

/-- The state after a step tells whether an item was offered without READY, and which. -/
theorem waiting_step (ready rises : Bool) {s : S.State} (ho : S.offer s = if H.paused s then none else H.current s) :
    (H.Waiting (if rises then S.tickPost (S.samplePre ready s) else S.samplePre ready s) ↔
        (S.offer s).isSome = true ∧ (!S.readsReady || ready) = false) ∧
      ∀ b, S.offer s = some b → (!S.readsReady || ready) = false →
        H.current (if rises then S.tickPost (S.samplePre ready s) else S.samplePre ready s) = some b := by
  obtain ⟨hc, hp, -, hs⟩ := H.samplePre_spec ready s ho
  obtain ⟨hp', hs', hc'⟩ := H.tickPost_spec (S.samplePre ready s)
  unfold Waiting
  rw [hc, hp, hs] at hc'
  cases rises with
  | false =>
    rw [if_neg Bool.false_ne_true, hc, hp, hs, ho]
    cases H.paused s <;> cases H.current s <;> simp
  | true =>
    rw [if_pos rfl, hp', hs', hc', hp, hs, ho]
    cases H.paused s <;> cases H.current s <;> cases !S.readsReady || ready <;> simp

/-- What a step shows, and that the item that waits after it is the one shown without READY. -/
theorem turn_spec {w w' : Watched S} {t : Turn ι} (h : w.turn t = .ok w') : ∃ x, w'.shown = w.shown ++ [x] ∧
      (∀ b, H.current w.state = some b → x.offer = if t.paused then none else some b) ∧
      (H.Waiting w'.state ↔ ∃ b, x = ⟨some b, false⟩) ∧ ∀ b, x = ⟨some b, false⟩ → H.current w'.state = some b := by
  obtain ⟨s, hs, h⟩ := ok_of_bind h
  obtain rfl := Except.ok.inj h
  obtain ⟨ho, hp, hc⟩ := H.offer_tickPre hs
  obtain ⟨hwait, hcur⟩ := H.waiting_step t.ready t.rises ho
  refine ⟨_, rfl, fun b hb => ?_, ?_, fun b hb => ?_⟩
  · change S.offer s = _
    rw [ho, hp, hc b hb]
  · rw [hwait]
    constructor
    · rintro ⟨hsome, hready⟩
      obtain ⟨b, hb⟩ := Option.isSome_iff_exists.mp hsome
      exact ⟨b, by rw [hb, hready]⟩
    · rintro ⟨b, hb⟩
      rw [Shown.mk.injEq] at hb
      exact ⟨by rw [hb.1]; rfl, hb.2⟩
  · rw [Shown.mk.injEq] at hb
    exact hcur b hb.1 hb.2

/-- After a run the item that waits, if any, is the one that was last offered without READY. -/
theorem waiting_run {ts : List (Turn ι)} {w : Watched S} (h : Watched.run S ts = .ok w) :
    (H.Waiting w.state ↔ ∃ b, w.shown.getLast? = some ⟨some b, false⟩) ∧
      ∀ b, w.shown.getLast? = some ⟨some b, false⟩ → H.current w.state = some b := by
  cases ts using List.reverseRecOn with
  | nil =>
    obtain rfl := Except.ok.inj h
    simp [Waiting, H.current_init]
  | append_singleton ts t =>
    rw [Watched.run_concat] at h
    obtain ⟨v, -, h⟩ := ok_of_bind h
    obtain ⟨x, hx, -, hwait, hcur⟩ := H.turn_spec h
    rw [hx, List.getLast?_concat]
    exact ⟨by simpa using hwait, fun b hb => hcur b (Option.some.inj hb)⟩

/-- A run is steady exactly if the source is never paused while an item waits. -/
theorem steady_iff {same : β → β → Prop} (hsame : ∀ b, same b b) {ts : List (Turn ι)} {w : Watched S}
    (h : Watched.run S ts = .ok w) :
    Steady same w.shown ↔ EachStep (fun before t => ∀ v, Watched.run S before = .ok v →
      ¬ H.Withdraws v.state t.sends t.paused) ts := by
  induction ts using List.reverseRecOn generalizing w with
  | nil =>
    obtain rfl := Except.ok.inj h
    exact ⟨fun _ => eachStep_nil, fun _ k b x hk => by simp at hk⟩
  | append_singleton ts t ih =>
    rw [Watched.run_concat] at h
    obtain ⟨v, hv, h⟩ := ok_of_bind h
    obtain ⟨x, hx, hoffer, -, -⟩ := H.turn_spec h
    obtain ⟨s, hs, -⟩ := ok_of_bind h
    obtain ⟨hwait, hcur⟩ := H.waiting_run hv
    -- the last step: the item shown before it waits, and is shown again unless the source is paused
    have hlast : (∀ b, v.shown.getLast? = some ⟨some b, false⟩ → ∃ b', x.offer = some b' ∧ same b b') ↔
        ¬ H.Withdraws v.state t.sends t.paused := by
      constructor
      · rintro hsteady ⟨hw, hpaused, -⟩
        obtain ⟨b, hb⟩ := hwait.mp hw
        obtain ⟨b', hb', -⟩ := hsteady b hb
        rw [hoffer b (hcur b hb), hpaused, if_pos rfl] at hb'
        cases hb'
      · intro hno b hb
        refine ⟨b, ?_, hsame b⟩
        rw [hoffer b (hcur b hb)]
        refine if_neg fun hpaused => hno ⟨hwait.mpr ⟨b, hb⟩, hpaused, s, hs⟩
    rw [hx, steady_concat, ih hv, hlast, eachStep_concat]
    refine and_congr Iff.rfl ⟨fun hno v' hv' => ?_, fun hno => hno v hv⟩
    rw [hv] at hv'
    obtain rfl := Except.ok.inj hv'
    exact hno

end Holder

end

/-! ## The errors of frames -/

/-- `AXIStreamProtocolError`: what the strict mode raises. -/
def Fault.isProtocol : Fault → Bool
  | .validDropped | .dataChanged _ _ | .lastChanged _ _ | .keepChanged _ _ => true
  | _ => false

theorem Interface.layout_error {I : Interface} {little : Bool} {f : Fault} (h : I.layout little = .error f) :
    f.isProtocol = false := by
  unfold Interface.layout at h
  split at h
  · split at h
    · cases h
    · cases h; rfl
  · cases h; rfl

theorem Packing.beat_error {p : Packing} {e : Element} {f : Fault} (h : p.beat e = .error f) : f.isProtocol = false := by
  unfold Packing.beat at h
  split at h <;> cases h <;> rfl

theorem Frame.pack_error {L : Layout} {p : Packing} {es : List Element} {f : Fault}
    (h : Frame.pack L p es = .error f) : f.isProtocol = false := by
  induction es generalizing p with
  | nil => cases h
  | cons e es ih =>
    unfold Frame.pack at h
    dsimp only at h
    split at h
    · rcases error_of_bind h with h | ⟨_, -, h⟩
      · exact Packing.beat_error h
      · rcases error_of_bind h with h | ⟨_, -, h⟩
        · exact ih h
        · cases h
    · exact ih h

theorem AxisSource.tickPre_error {I : Interface} {little paused : Bool} {s : AxisSource} {f : Fault}
    (h : s.tickPre I little paused = .error f) : f.isProtocol = false := by
  rcases error_of_bind h with h | ⟨_, -, h⟩
  · unfold loadNextFrame at h
    split at h
    · rcases error_of_bind h with h | ⟨_, -, h⟩
      · exact I.layout_error h
      · rcases error_of_bind h with h | ⟨_, -, h⟩
        · exact Frame.pack_error h
        · cases h
    · cases h
  · cases h

theorem AxisSink.tickPost_error {I : Interface} {little : Bool} {s : AxisSink} {f : Fault}
    (h : s.tickPost I little = .error f) : f.isProtocol = false := by
  unfold tickPost at h
  split at h
  · cases h
  · dsimp only at h
    split at h
    · rcases error_of_bind h with h | ⟨_, -, h⟩
      · rcases error_of_bind h with h | ⟨L, -, h⟩
        · exact I.layout_error h
        · unfold Layout.fromBeats at h
          split at h
          · cases h; rfl
          · cases h
      · cases h
    · cases h

/-! ## A sink in strict mode -/

/-- A step of a source that is connected directly to a sink. -/
structure LinkTurn where
  sends : List Frame
  takes : List Take
  sourcePaused : Bool
  sinkPaused : Bool
  rises : Bool

def LinkTurn.events (t : LinkTurn) : List (Event Frame) :=
  t.sends.map .send ++ t.takes.map .take ++
    [.tickPre t.sourcePaused t.sinkPaused, .samplePre, if t.rises then .rise else .foreign]

section

variable (I : Interface) (hasTready srcLittle little : Bool)

/-- A source and a sink in strict mode, on the same wires. -/
abbrev Link : Type :=
  Network (AxisSource.asEnd I hasTready srcLittle) (Stage.wire Carried) (AxisSink.asEnd I hasTready true little)

variable {I hasTready srcLittle little}

/-- What is taken before a step. -/
def takeAll (ts : List Take) (s : AxisSink) : AxisSink := ts.foldl (fun s t => (s.take t).2) s

def Link.turn (n : Link I hasTready srcLittle little) (t : LinkTurn) : Except Fault (Link I hasTready srcLittle little) :=
  t.events.foldlM Network.act n

variable (I hasTready srcLittle little) in
def Link.run (ts : List LinkTurn) : Except Fault (Link I hasTready srcLittle little) :=
  ts.foldlM Link.turn ⟨(AxisSource.asEnd I hasTready srcLittle).init, (), (AxisSink.asEnd I hasTready true little).init,
    .idle⟩

theorem Link.foldlM_sends (xs : List Frame) (n : Link I hasTready srcLittle little) :
    (xs.map Event.send).foldlM Network.act n =
      .ok { n with src := sendAll (S := AxisSource.asEnd I hasTready srcLittle) xs n.src } := by
  induction xs generalizing n with
  | nil => rfl
  | cons x xs ih =>
    rw [List.map_cons, List.foldlM_cons]
    exact ih { n with src := (AxisSource.asEnd I hasTready srcLittle).send x n.src }

theorem Link.foldlM_takes (ts : List Take) (n : Link I hasTready srcLittle little) :
    (ts.map Event.take).foldlM Network.act n = .ok { n with snk := takeAll ts n.snk } := by
  induction ts generalizing n with
  | nil => rfl
  | cons t ts ih =>
    rw [List.map_cons, List.foldlM_cons]
    exact ih { n with snk := ((n.snk : AxisSink).take t).2 }

/-- READY as the sink drives it. -/
theorem Link.ready_tickPre (s : AxisSink) (paused : Bool) :
    (AxisSink.asEnd I hasTready true little).ready (s.tickPre hasTready paused) = (!hasTready || !paused) := by
  change (!hasTready || if hasTready then !paused else s.readyLine) = _
  cases hasTready <;> rfl

section

variable (n : Link I hasTready srcLittle little)

theorem Link.act_tickPre (ps pk : Bool) : n.act (.tickPre ps pk) =
    (AxisSource.tickPre I srcLittle ps n.src).bind fun src =>
      .ok ⟨src, n.chain, AxisSink.tickPre hasTready pk n.snk, .driven⟩ := rfl

theorem Link.act_samplePre : n.act .samplePre =
    (AxisSink.samplePre I hasTready true (AxisSource.driven n.src) n.snk).bind fun snk =>
      .ok ⟨AxisSource.samplePre hasTready ((AxisSink.asEnd I hasTready true little).ready n.snk) n.src, n.chain, snk,
        .sampled⟩ := rfl

theorem Link.act_rise : n.act .rise =
    (AxisSink.tickPost I little n.snk).bind fun snk => .ok ⟨AxisSource.tickPost n.src, (), snk, .idle⟩ := rfl

/-- A step in its phases. -/
theorem Link.turn_eq (t : LinkTurn) : n.turn t = (AxisSource.tickPre I srcLittle t.sourcePaused
        (sendAll (S := AxisSource.asEnd I hasTready srcLittle) t.sends n.src)).bind fun src =>
      (((takeAll t.takes n.snk).tickPre hasTready t.sinkPaused).samplePre I hasTready true src.driven).bind fun snk =>
        let sampled := src.samplePre hasTready (!hasTready || !t.sinkPaused)
        if t.rises then (snk.tickPost I little).bind fun snk => .ok ⟨sampled.tickPost, (), snk, .idle⟩
        else .ok ⟨sampled, (), snk, .idle⟩ := by
  rw [turn, LinkTurn.events, List.foldlM_append, List.foldlM_append, foldlM_sends]
  change Except.bind ((t.takes.map Event.take).foldlM Network.act _) _ = _
  rw [foldlM_takes]
  change Except.bind (Network.act _ (.tickPre t.sourcePaused t.sinkPaused)) _ = _
  rw [act_tickPre]
  cases AxisSource.tickPre I srcLittle t.sourcePaused
    (sendAll (S := AxisSource.asEnd I hasTready srcLittle) t.sends n.src) with
  | error e => rfl
  | ok src =>
    change Except.bind (Network.act _ .samplePre) _ = Except.bind (AxisSink.samplePre I hasTready true src.driven _) _
    rw [act_samplePre, ready_tickPre]
    cases AxisSink.samplePre I hasTready true src.driven
      ((takeAll t.takes n.snk).tickPre hasTready t.sinkPaused) with
    | error e => rfl
    | ok snk =>
      cases t.rises with
      | false => rfl
      | true =>
        change Except.bind (Network.act _ .rise) _ = Except.bind (AxisSink.tickPost I little snk) _
        rw [act_rise]
        cases AxisSink.tickPost I little snk <;> rfl

end

/-! ## What the monitor has seen -/

/-- The monitor has seen what waits in the source. -/
structure Monitors (n : Link I hasTready srcLittle little) : Prop where
  waits : (AxisSource.holder I hasTready srcLittle).Waiting n.src ↔
    AxisSink.monPrevValid n.snk = true ∧ AxisSink.monPrevHandshake n.snk = false
  seen : ∀ b, (AxisSource.holder I hasTready srcLittle).Waiting n.src →
    (AxisSource.holder I hasTready srcLittle).current n.src = some b →
      AxisSink.monPrevData n.snk = b.tdata ∧ AxisSink.monPrevTlast n.snk = b.tlast ∧
        (I.tkeep.isSome → AxisSink.monPrevTkeep n.snk = b.tkeep)

/-- What is taken from the queue and the pause do not change what the monitor remembers. -/
theorem AxisSink.monitor_same (hasTready : Bool) (ts : List Take) (s : AxisSink) (paused : Bool) :
    ((takeAll ts s).tickPre hasTready paused).monPrevValid = s.monPrevValid ∧
      ((takeAll ts s).tickPre hasTready paused).monPrevHandshake = s.monPrevHandshake ∧
      ((takeAll ts s).tickPre hasTready paused).monPrevData = s.monPrevData ∧
      ((takeAll ts s).tickPre hasTready paused).monPrevTlast = s.monPrevTlast ∧
      ((takeAll ts s).tickPre hasTready paused).monPrevTkeep = s.monPrevTkeep := by
  unfold takeAll
  induction ts generalizing s with
  | nil => exact ⟨rfl, rfl, rfl, rfl, rfl⟩
  | cons t ts ih =>
    rw [List.foldl_cons]
    cases t with
    | recv => exact ih _
    | read count => exact ih _

/-- What the monitor remembers of a step. -/
theorem AxisSink.samplePre_monitor {i : Option Carried} {s s' : AxisSink}
    (h : s.samplePre I hasTready true i = .ok s') :
    s'.monPrevValid = i.isSome ∧ s'.monPrevHandshake = (i.isSome && s.tready hasTready) ∧
      ∀ b, i = some b → s'.monPrevData = b.tdata ∧ s'.monPrevTlast = b.tlast ∧
        (I.tkeep.isSome → s'.monPrevTkeep = b.tkeep) := by
  obtain ⟨-, -, h⟩ := ok_of_bind h
  obtain rfl := Except.ok.inj h
  cases i with
  | none => exact ⟨rfl, rfl, fun b hb => (by cases hb)⟩
  | some b =>
    unfold monitor
    refine ⟨by simp, by simp, fun b' hb' => ?_⟩
    cases hb'
    exact ⟨rfl, rfl, fun hk => if_pos hk⟩

theorem AxisSink.tickPost_monitor {s s' : AxisSink} (h : s.tickPost I little = .ok s') :
    s'.monPrevValid = s.monPrevValid ∧ s'.monPrevHandshake = s.monPrevHandshake ∧ s'.monPrevData = s.monPrevData ∧
      s'.monPrevTlast = s.monPrevTlast ∧ s'.monPrevTkeep = s.monPrevTkeep := by
  unfold tickPost at h
  split at h
  · obtain rfl := Except.ok.inj h
    exact ⟨rfl, rfl, rfl, rfl, rfl⟩
  · dsimp only at h
    split at h
    · obtain ⟨frame, -, h⟩ := ok_of_bind h
      obtain rfl := Except.ok.inj h
      exact ⟨rfl, rfl, rfl, rfl, rfl⟩
    · obtain rfl := Except.ok.inj h
      exact ⟨rfl, rfl, rfl, rfl, rfl⟩

/-- The strict mode raises exactly where an item that waits is withdrawn. -/
theorem Monitors.checkStable {n : Link I hasTready srcLittle little} (h : Monitors n) {t : LinkTurn} {src : AxisSource}
    (hsrc : AxisSource.tickPre I srcLittle t.sourcePaused
      (sendAll (S := AxisSource.asEnd I hasTready srcLittle) t.sends n.src) = .ok src) :
    ((takeAll t.takes n.snk).tickPre hasTready t.sinkPaused).checkStable I true src.driven =
      if (AxisSource.holder I hasTready srcLittle).Waiting n.src ∧ t.sourcePaused = true then .error .validDropped
      else .ok () := by
  have hoffer := (AxisSource.holder I hasTready srcLittle).offer_tickPre hsrc
  obtain ⟨hvalid, hhand, hdata, hlast, hkeep⟩ := AxisSink.monitor_same hasTready t.takes n.snk t.sinkPaused
  unfold AxisSink.checkStable
  rw [hvalid, hhand, hdata, hlast, hkeep]
  by_cases hw : (AxisSource.holder I hasTready srcLittle).Waiting n.src
  · obtain ⟨b, hb⟩ := Option.isSome_iff_exists.mp hw.2.2
    obtain ⟨hdata', hlast', hkeep'⟩ := h.seen b hw hb
    have hdriven : src.driven = if t.sourcePaused then none else some b := by
      rw [← hoffer.2.1, ← hoffer.2.2 b hb]
      exact hoffer.1
    rw [(h.waits.mp hw).1, (h.waits.mp hw).2, hdriven, if_pos (by decide)]
    cases t.sourcePaused with
    | true => simp [hw]
    | false =>
      simp only [Bool.false_eq_true, if_false, and_false]
      rw [if_neg (by simp [hdata']), if_neg (by simp [hlast']), if_neg (fun hk => hk.2 (hkeep' hk.1).symm)]
  · rw [if_neg, if_neg (fun hc => hw hc.1)]
    intro hc
    rw [Bool.true_and, Bool.and_eq_true, Bool.not_eq_true'] at hc
    exact hw (h.waits.mpr hc)

/-- READY as the sink samples it. -/
theorem AxisSink.tready_tickPre {paused : Bool} (s : AxisSink) (hpause : hasTready = false → paused = false) :
    (s.tickPre hasTready paused).tready hasTready = (!hasTready || !paused) := by
  unfold tready tickPre
  cases hasTready with
  | false => rfl
  | true => cases paused <;> rfl

/-- Once a step has been sampled, the monitor has seen what waits. -/
theorem Monitors.of_sampled (rises : Bool) {src : AxisSource} {snk snk' snk'' : AxisSink} {ready : Bool}
    (ho : src.driven = if (AxisSource.holder I hasTready srcLittle).paused src then none
      else (AxisSource.holder I hasTready srcLittle).current src)
    (hs : snk.samplePre I hasTready true src.driven = .ok snk') (hready : snk.tready hasTready = (!hasTready || ready))
    (hsame : snk''.monPrevValid = snk'.monPrevValid ∧ snk''.monPrevHandshake = snk'.monPrevHandshake ∧
      snk''.monPrevData = snk'.monPrevData ∧ snk''.monPrevTlast = snk'.monPrevTlast ∧
        snk''.monPrevTkeep = snk'.monPrevTkeep) :
    Monitors (⟨if rises then (src.samplePre hasTready ready).tickPost else src.samplePre hasTready ready, (), snk'',
      .idle⟩ : Link I hasTready srcLittle little) := by
  obtain ⟨hwait, hcur⟩ := (AxisSource.holder I hasTready srcLittle).waiting_step ready rises ho
  obtain ⟨hvalid, hhand, hseen⟩ := AxisSink.samplePre_monitor hs
  obtain ⟨hvalid', hhand', hdata, hlast, hkeep⟩ := hsame
  constructor
  · refine hwait.trans ?_
    change src.driven.isSome = true ∧ (!hasTready || ready) = false ↔
      snk''.monPrevValid = true ∧ snk''.monPrevHandshake = false
    rw [hvalid', hhand', hvalid, hhand, hready]
    refine and_congr_right fun hsome => ?_
    rw [hsome, Bool.true_and]
  · intro b hw hb
    obtain ⟨hsome, hlow⟩ := hwait.mp hw
    obtain ⟨b', hb'⟩ := Option.isSome_iff_exists.mp hsome
    obtain rfl := Option.some.inj (hb.symm.trans (hcur b' hb' hlow))
    change snk''.monPrevData = _ ∧ snk''.monPrevTlast = _ ∧ (_ → snk''.monPrevTkeep = _)
    rw [hdata, hlast, hkeep]
    exact hseen b hb'

/-- A step raises an error of the protocol exactly where an item that waits is withdrawn; otherwise the monitor has
seen what waits after it. -/
theorem Monitors.turn {n : Link I hasTready srcLittle little} (h : Monitors n) {t : LinkTurn}
    (hpause : hasTready = false → t.sinkPaused = false) :
    ((∃ f, f.isProtocol = true ∧ n.turn t = .error f) ↔
        (AxisSource.holder I hasTready srcLittle).Withdraws n.src t.sends t.sourcePaused) ∧
      ∀ n', n.turn t = .ok n' → Monitors n' := by
  rw [Link.turn_eq]
  cases hsrc : AxisSource.tickPre I srcLittle t.sourcePaused
    (sendAll (S := AxisSource.asEnd I hasTready srcLittle) t.sends n.src) with
  | error e =>
    refine ⟨⟨?_, ?_⟩, fun n' hn' => (by cases hn')⟩
    · rintro ⟨f, hf, he⟩
      cases he
      rw [AxisSource.tickPre_error hsrc] at hf
      cases hf
    · rintro ⟨-, -, src, hs⟩
      rw [show AxisSource.tickPre I srcLittle t.sourcePaused _ = _ from hs] at hsrc
      cases hsrc
  | ok src =>
    have ho := (AxisSource.holder I hasTready srcLittle).offer_tickPre hsrc
    have hcheck := h.checkStable hsrc
    change (((∃ f, f.isProtocol = true ∧
      Except.bind (AxisSink.samplePre I hasTready true src.driven _) _ = .error f) ↔ _) ∧
      ∀ n', Except.bind (AxisSink.samplePre I hasTready true src.driven _) _ = .ok n' → _)
    cases hsnk : AxisSink.samplePre I hasTready true src.driven
      ((takeAll t.takes n.snk).tickPre hasTready t.sinkPaused) with
    | error e =>
      -- only the check raises, and it raises only where an item is withdrawn
      rcases error_of_bind hsnk with he | ⟨_, -, he⟩
      · rw [hcheck] at he
        split at he
        · rename_i hw
          cases he
          exact ⟨⟨fun _ => ⟨hw.1, hw.2, src, hsrc⟩, fun _ => ⟨_, rfl, rfl⟩⟩, fun n' hn' => (by cases hn')⟩
        · cases he
      · cases he
    | ok snk =>
      have hno : ¬ (AxisSource.holder I hasTready srcLittle).Withdraws n.src t.sends t.sourcePaused := by
        rintro ⟨hw, hp, -⟩
        obtain ⟨_, hc, -⟩ := ok_of_bind hsnk
        rw [hcheck, if_pos ⟨hw, hp⟩] at hc
        cases hc
      have hready := AxisSink.tready_tickPre (takeAll t.takes n.snk) hpause
      have hready' : ((takeAll t.takes n.snk).tickPre hasTready t.sinkPaused).tready hasTready =
          (!hasTready || (!hasTready || !t.sinkPaused)) := by
        rw [hready]
        cases hasTready <;> rfl
      rw [iff_false_right hno]
      cases hrises : t.rises with
      | false =>
        refine ⟨?_, fun n' hn' => ?_⟩
        · rintro ⟨f, -, hf⟩
          cases hf
        · cases hn'
          exact Monitors.of_sampled false ho.1 hsnk hready' ⟨rfl, rfl, rfl, rfl, rfl⟩
      | true =>
        change (¬ (∃ f, f.isProtocol = true ∧ Except.bind (AxisSink.tickPost I little snk) _ = .error f)) ∧
          ∀ n', Except.bind (AxisSink.tickPost I little snk) _ = .ok n' → _
        cases hpost : AxisSink.tickPost I little snk with
        | error e =>
          refine ⟨?_, fun n' hn' => (by cases hn')⟩
          rintro ⟨f, hf, he⟩
          cases he
          rw [AxisSink.tickPost_error hpost] at hf
          cases hf
        | ok snk' =>
          refine ⟨?_, fun n' hn' => ?_⟩
          · rintro ⟨f, -, hf⟩
            cases hf
          · cases hn'
            exact Monitors.of_sampled true ho.1 hsnk hready' (AxisSink.tickPost_monitor hpost)

theorem Monitors.start : Monitors (⟨(AxisSource.asEnd I hasTready srcLittle).init, (),
    (AxisSink.asEnd I hasTready true little).init, .idle⟩ : Link I hasTready srcLittle little) := by
  constructor
  · constructor
    · rintro ⟨-, -, h⟩
      cases h
    · rintro ⟨h, -⟩
      cases h
  · rintro b ⟨-, -, h⟩
    cases h

theorem Link.run_concat (ts : List LinkTurn) (t : LinkTurn) : Link.run I hasTready srcLittle little (ts ++ [t]) =
      (Link.run I hasTready srcLittle little ts).bind fun n => n.turn t := by
  rw [Link.run, foldlM_concat]
  rfl

theorem Monitors.run {ts : List LinkTurn} (hpause : hasTready = false → ∀ t ∈ ts, t.sinkPaused = false)
    {n : Link I hasTready srcLittle little} (h : Link.run I hasTready srcLittle little ts = .ok n) : Monitors n := by
  induction ts using List.reverseRecOn generalizing n with
  | nil => cases h; exact Monitors.start
  | append_singleton ts t ih =>
    rw [Link.run_concat] at h
    obtain ⟨v, hv, h⟩ := ok_of_bind h
    refine ((ih (fun hT t' ht' => hpause hT t' (List.mem_append_left _ ht')) hv).turn ?_).2 n h
    exact fun hT => hpause hT t (by simp)

/-- Directly connected, a strict sink never raises an error of the protocol exactly if the source is never paused while
an item waits. -/
theorem Link.raises_iff {ts : List LinkTurn} (hpause : hasTready = false → ∀ t ∈ ts, t.sinkPaused = false) :
    (∀ f, f.isProtocol = true → Link.run I hasTready srcLittle little ts ≠ .error f) ↔
      EachStep (fun before t => ∀ n, Link.run I hasTready srcLittle little before = .ok n →
        ¬ (AxisSource.holder I hasTready srcLittle).Withdraws n.src t.sends t.sourcePaused) ts := by
  induction ts using List.reverseRecOn with
  | nil => exact ⟨fun _ => eachStep_nil, fun _ f _ h => (by cases h)⟩
  | append_singleton ts t ih =>
    have hpause' : hasTready = false → ∀ t' ∈ ts, t'.sinkPaused = false :=
      fun hT t' ht' => hpause hT t' (List.mem_append_left _ ht')
    rw [eachStep_concat, ← ih hpause', Link.run_concat]
    cases hrun : Link.run I hasTready srcLittle little ts with
    | error e =>
      constructor
      · exact fun h => ⟨h, fun n hn => (by cases hn)⟩
      · exact fun h => h.1
    | ok n =>
      have hturn := ((Monitors.run hpause' hrun).turn fun hT => hpause hT t (by simp)).1
      change (∀ f, f.isProtocol = true → n.turn t ≠ .error f) ↔ _
      constructor
      · intro h
        refine ⟨fun f _ hf => (by cases hf), fun n' hn' hw => ?_⟩
        cases hn'
        obtain ⟨f, hf, he⟩ := hturn.mpr hw
        exact h f hf he
      · rintro ⟨-, h⟩ f hf he
        exact h n rfl (hturn.mp ⟨f, hf, he⟩)

end

/-! ## Steady sources -/

/-- TDATA, TLAST and TKEEP are the same. -/
def sameLines (b b' : Carried) : Prop := b'.tdata = b.tdata ∧ b'.tlast = b.tlast ∧ b'.tkeep = b.tkeep

/-- The data are the same. -/
def sameData (r r' : Record) : Prop := r'.data = r.data

/-- The sources offer what was offered without READY again, and a strict sink on the wires of an AXI-Stream source never
raises, exactly if the source is never paused while an item waits. -/
theorem stable_iff (I : Interface) (hasTready little : Bool) :
    (∀ (ts : List (Turn Frame)) (w : Watched (AxisSource.asEnd I hasTready little)), Watched.run _ ts = .ok w →
      (Steady sameLines w.shown ↔ EachStep (fun before t => ∀ v, Watched.run _ before = .ok v →
        ¬ (AxisSource.holder I hasTready little).Withdraws v.state t.sends t.paused) ts)) ∧
    (∀ (srcLittle : Bool) (ts : List LinkTurn),
      (hasTready = false → ∀ t ∈ ts, t.sinkPaused = false) →
      ((∀ f, f.isProtocol = true → Link.run I hasTready srcLittle little ts ≠ .error f) ↔
        EachStep (fun before t => ∀ n, Link.run I hasTready srcLittle little before = .ok n →
          ¬ (AxisSource.holder I hasTready srcLittle).Withdraws n.src t.sends t.sourcePaused) ts)) ∧
    ∀ (B : Bundle) (ts : List (Turn Item)) (w : Watched (StreamSource.asEnd B)), Watched.run _ ts = .ok w →
      (Steady sameData w.shown ↔ EachStep (fun before t => ∀ v, Watched.run _ before = .ok v →
        ¬ (StreamSource.holder B).Withdraws v.state t.sends t.paused) ts) := by
  refine ⟨fun ts w h => ?_, fun srcLittle ts hpause => ?_, fun B ts w h => ?_⟩
  · exact (AxisSource.holder I hasTready little).steady_iff (fun b => ⟨rfl, rfl, rfl⟩) h
  · exact Link.raises_iff hpause
  · exact (StreamSource.holder B).steady_iff (fun r => (rfl : sameData r r)) h

/-- One byte, with TLAST. -/
def oneByte : Frame where
  layout := ⟨1, 8, true, Nat.one_pos, Nat.succ_pos _⟩
  elements := [⟨5, true, 0, 0, 0, true⟩]
  fits := by decide

/-- An interface of one byte, with TLAST. -/
def byteWires : Interface := ⟨8, true, none, none, none, none⟩

/-- A byte is sent and waits for READY, the source not being paused, or being paused in the second step. -/
def waitingTurns (paused : Bool) : List (Turn Frame) := [⟨[oneByte], false, false, true⟩, ⟨[], paused, false, true⟩]

theorem steady_waiting :
    (∃ w, Watched.run (AxisSource.asEnd byteWires true true) (waitingTurns false) = .ok w ∧
      Steady sameLines w.shown) ∧
    (∀ f, f.isProtocol = true → Link.run byteWires true true true [⟨[oneByte], [], false, true, true⟩] ≠ .error f) ∧
    ∃ w, Watched.run (StreamSource.asEnd ⟨some 8, []⟩) [⟨[⟨5, []⟩], false, false, true⟩] = .ok w ∧
      Steady sameData w.shown := by
  refine ⟨⟨_, rfl, ((stable_iff byteWires true true).1 (waitingTurns false) _ rfl).mpr ?axis⟩,
    ((stable_iff byteWires true true).2.1 true [⟨[oneByte], [], false, true, true⟩] fun h => Bool.noConfusion h).mpr
      ?link,
    _, rfl, ((stable_iff byteWires true true).2.2 ⟨some 8, []⟩ [⟨[⟨5, []⟩], false, false, true⟩] _ rfl).mpr ?stream⟩
  case axis =>
    intro k t ht v _ hw
    match k with
    | 0 | 1 =>
        cases ht
        cases hw.2.1
    | k + 2 => cases ht
  case link =>
    intro k t ht n _ hw
    match k with
    | 0 =>
        cases ht
        cases hw.2.1
    | k + 1 => cases ht
  case stream =>
    intro k t ht v _ hw
    match k with
    | 0 =>
        cases ht
        cases hw.2.1
    | k + 1 => cases ht

/-- Paused while the byte waits, the source withdraws it. -/
theorem paused_withdraws : ∃ w, Watched.run (AxisSource.asEnd byteWires true true) (waitingTurns true) = .ok w ∧
    ¬ Steady sameLines w.shown := by
  refine ⟨_, rfl, fun h => ?_⟩
  obtain ⟨b, hb, -⟩ := h 0 ⟨5, 1, 0, 0, 0, true⟩ ⟨none, false⟩ rfl rfl
  cases hb

end Veriforge.Stream

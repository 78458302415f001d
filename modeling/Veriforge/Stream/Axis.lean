import Mathlib.Data.List.Forall2
import Veriforge.Stream.Coordinator
import Veriforge.Stream.Frame

/-! # AXI-Stream endpoints

`AXIStreamSource` and `AXIStreamSink`, a function for each of their phases. What the pause attribute says
when it is asked is an argument of `tick_pre`. -/

namespace Veriforge.Stream

open Pipeline (cut cut_concat)

/-- What a test does with the frames of a queue: `recv()` takes the first, `read()` all. -/
def Take.frames {κ : Type} (queue : List κ) : Take → List κ × List κ
  | .recv => (queue.take 1, queue.drop 1)
  | .read _ => (queue, [])

/-! ## The source -/

/-- `AXIStreamSource`; `driven` are the lines. -/
structure AxisSource where
  pausedThisCycle : Bool
  queue : List Frame
  beatQueue : List Beat
  currentBeat : Option Beat
  sampledHandshake : Bool
  driven : Option Carried

namespace AxisSource

variable (I : Interface) (hasTready : Bool) (little : Bool)

/-- `_load_next_frame`: the frame keeps its own layout, that of the interface is only checked. -/
def loadNextFrame (s : AxisSource) : Except Fault AxisSource :=
  match s.beatQueue, s.queue with
  | [], frame :: queue => do
      let _ ← I.layout little
      let beats ← frame.toBeats
      return { s with queue := queue, beatQueue := beats }
  | _, _ => .ok s

/-- The next beat becomes the current one. -/
def advance (s : AxisSource) : AxisSource :=
  match s.currentBeat, s.beatQueue with
  | none, beat :: rest => { s with currentBeat := some beat, beatQueue := rest }
  | _, _ => s

/-- The lines: idle when the source is paused or has no beat. -/
def drive (s : AxisSource) : AxisSource :=
  { s with driven := if s.pausedThisCycle then none else s.currentBeat.map I.carry }

def tickPre (paused : Bool) (s : AxisSource) : Except Fault AxisSource := do
  let s ← { s with pausedThisCycle := paused }.loadNextFrame I little
  return s.advance.drive I

def samplePre (ready : Bool) (s : AxisSource) : AxisSource :=
  { s with
    sampledHandshake := if s.pausedThisCycle || s.currentBeat.isNone then false else if hasTready then ready else true }

def tickPost (s : AxisSource) : AxisSource :=
  if s.pausedThisCycle || s.currentBeat.isNone then s
  else if s.sampledHandshake then { s with currentBeat := none }
  else s

/-- `send`. -/
def send (frame : Frame) (s : AxisSource) : AxisSource := { s with queue := s.queue ++ [frame] }

/-- The beats that are left, in order. -/
def beatsLeft (s : AxisSource) : List Beat := s.currentBeat.toList ++ s.beatQueue ++ s.queue.flatMap Frame.beats

variable {I little}

theorem beatsLeft_loadNextFrame {s s' : AxisSource} (h : s.loadNextFrame I little = .ok s') :
    s'.beatsLeft = s.beatsLeft := by
  unfold loadNextFrame at h
  split at h
  · next frame queue hbeats hqueue =>
    obtain ⟨-, -, h⟩ := ok_of_bind h
    obtain ⟨beats, htoBeats, h⟩ := ok_of_bind h
    obtain rfl := Except.ok.inj h
    unfold beatsLeft
    rw [hbeats, hqueue, List.flatMap_cons, Frame.beats_of_ok htoBeats]
    simp
  · obtain rfl := Except.ok.inj h
    rfl

theorem beatsLeft_advance (s : AxisSource) : s.advance.beatsLeft = s.beatsLeft := by
  unfold advance
  split
  · next beat rest hcurrent hbeats =>
    unfold beatsLeft
    rw [hcurrent, hbeats]
    rfl
  · rfl

theorem beatsLeft_send (frame : Frame) (s : AxisSource) : (s.send frame).beatsLeft = s.beatsLeft ++ frame.beats := by
  unfold beatsLeft send
  rw [List.append_assoc, List.append_assoc, List.append_assoc, List.flatMap_append, List.flatMap_singleton]

theorem beatsLeft_tickPre {paused : Bool} {s s' : AxisSource} (h : s.tickPre I little paused = .ok s') :
    s'.beatsLeft = s.beatsLeft := by
  obtain ⟨s₁, hload, h⟩ := ok_of_bind h
  obtain rfl := Except.ok.inj h
  change s₁.advance.beatsLeft = s.beatsLeft
  rw [beatsLeft_advance, beatsLeft_loadNextFrame hload]
  rfl

/-- At most the first of the beats goes at an edge. -/
theorem beatsLeft_tickPost (s : AxisSource) : ∃ first, first ++ s.tickPost.beatsLeft = s.beatsLeft := by
  unfold tickPost
  split
  · exact ⟨[], rfl⟩
  · split
    · exact ⟨s.currentBeat.toList, by simp [beatsLeft]⟩
    · exact ⟨[], rfl⟩

/-- The source, as the coordinator sees it. -/
def asEnd (I : Interface) (hasTready little : Bool) : SourceEnd Frame Carried Fault where
  State := AxisSource
  init := ⟨false, [], [], none, false, none⟩
  send := send
  tickPre := tickPre I little
  samplePre := samplePre hasTready
  tickPost := tickPost
  offer := driven
  readsReady := hasTready
  items frame := frame.beats.map I.carry
  left s := s.beatsLeft.map I.carry
  Driven s := s.driven = if s.pausedThisCycle then none else s.currentBeat.map I.carry
  took s := !s.pausedThisCycle && s.currentBeat.isSome && s.sampledHandshake
  left_init := rfl
  left_send frame s := by rw [beatsLeft_send, List.map_append]
  send_same _ _ := ⟨rfl, rfl, fun h => h⟩
  left_tickPre p s s' h := by
    refine ⟨by rw [beatsLeft_tickPre h], ?_⟩
    obtain ⟨s₁, -, h⟩ := ok_of_bind h
    obtain rfl := Except.ok.inj h
    rfl
  offer_first s hs x hx := by
    rw [hs] at hx
    split at hx
    · exact nomatch hx
    · obtain ⟨beat, hbeat, rfl⟩ := Option.map_eq_some_iff.mp hx
      unfold beatsLeft
      rw [hbeat]
      rfl
  samplePre_spec ready s hs := by
    refine ⟨rfl, rfl, hs, ?_⟩
    unfold samplePre
    rw [hs]
    cases s.pausedThisCycle <;> cases s.currentBeat <;> cases hasTready <;> cases ready <;> rfl
  left_tickPost s := by
    unfold tickPost beatsLeft
    cases hp : s.pausedThisCycle <;> cases hc : s.currentBeat <;> cases hs : s.sampledHandshake <;> simp [hp, hc, hs]

end AxisSource

/-! ## The sink -/

/-- `AXIStreamSink`; `readyLine` is what it drives. The `mon` fields are those of the strict mode. -/
structure AxisSink where
  pausedThisCycle : Bool
  queue : List Frame
  readQueue : List Nat
  sampledHandshake : Bool
  sampled : Carried
  monPrevValid : Bool
  monPrevHandshake : Bool
  monPrevData : Nat
  monPrevTlast : Bool
  monPrevTkeep : Nat
  pending : List Carried
  readyLine : Bool

namespace AxisSink

variable (I : Interface) (hasTready strict little : Bool)

/-- The frame that the sink makes of the beats that it has captured. -/
def frameOf (beats : List Carried) : Except Fault Frame := do
  let layout ← I.layout little
  layout.fromBeats beats

def tickPre (paused : Bool) (s : AxisSink) : AxisSink :=
  { s with pausedThisCycle := paused, readyLine := if hasTready then !paused else s.readyLine }

/-- READY as `sample_pre` has it. -/
def tready (s : AxisSink) : Bool := if hasTready then !s.pausedThisCycle && s.readyLine else true

/-- The checks of the strict mode. -/
def checkStable (i : Option Carried) (s : AxisSink) : Except Fault Unit :=
  if strict && s.monPrevValid && !s.monPrevHandshake then
    match i with
    | none => .error .validDropped
    | some b =>
        if b.tdata ≠ s.monPrevData then .error (.dataChanged s.monPrevData b.tdata)
        else if b.tlast ≠ s.monPrevTlast then .error (.lastChanged s.monPrevTlast b.tlast)
        else if I.tkeep.isSome ∧ b.tkeep ≠ s.monPrevTkeep then .error (.keepChanged s.monPrevTkeep b.tkeep)
        else .ok ()
  else .ok ()

/-- What the monitor remembers of this cycle. -/
def monitor (i : Option Carried) (handshake : Bool) (s : AxisSink) : AxisSink :=
  let s := { s with monPrevValid := i.isSome, monPrevHandshake := handshake }
  match i with
  | none => s
  | some b =>
      { s with
        monPrevData := b.tdata
        monPrevTlast := b.tlast
        monPrevTkeep := if I.tkeep.isSome then b.tkeep else s.monPrevTkeep }

def samplePre (i : Option Carried) (s : AxisSink) : Except Fault AxisSink := do
  s.checkStable I strict i
  let handshake := i.isSome && s.tready hasTready
  let s := { s with sampledHandshake := false }
  let s :=
    match i with
    | some b => if !s.pausedThisCycle && handshake then { s with sampledHandshake := true, sampled := b } else s
    | none => s
  return s.monitor I i handshake

def tickPost (s : AxisSink) : Except Fault AxisSink :=
  if s.pausedThisCycle || !s.sampledHandshake then .ok s
  else
    let s := { s with pending := s.pending ++ [s.sampled] }
    if s.sampled.tlast then do
      let frame ← frameOf I little s.pending
      return { s with queue := s.queue ++ [frame], pending := [] }
    else .ok s

/-- `recv` and `read`: what `read` does not return stays in the read queue. -/
def take (t : Take) (s : AxisSink) : List Frame × AxisSink :=
  let taken := t.frames s.queue
  match t with
  | .recv => (taken.1, { s with queue := taken.2 })
  | .read count =>
      let data := s.readQueue ++ taken.1.flatMap fun frame => frame.elements.map (·.data)
      (taken.1, { s with queue := taken.2, readQueue := if count < 0 then [] else data.drop count.toNat })

/-- The beat that `tick_post` takes. -/
def captured (s : AxisSink) : Option Carried := if s.pausedThisCycle || !s.sampledHandshake then none else some s.sampled

/-- The frames queued so far are those of the accepted beats, cut after each with TLAST; what is left of
these is pending. -/
def Records (frames : List Frame) (accepted : List Carried) (s : AxisSink) : Prop :=
  List.Forall₂ (fun beats frame => frameOf I little beats = .ok frame) (cut Carried.tlast accepted).1 (frames ++ s.queue) ∧
    s.pending = (cut Carried.tlast accepted).2

variable {I hasTready strict little}

/-- `sample_pre` samples a beat that is transferred. -/
theorem samplePre_ok {i : Option Carried} {s s' : AxisSink} (h : s.samplePre I hasTready strict i = .ok s') :
    s'.pausedThisCycle = s.pausedThisCycle ∧ s'.readyLine = s.readyLine ∧ s'.queue = s.queue ∧ s'.pending = s.pending ∧
      s'.captured = if !s.pausedThisCycle && s.tready hasTready then i else none := by
  obtain ⟨-, -, h⟩ := ok_of_bind h
  obtain rfl := Except.ok.inj h
  cases i with
  | none => refine ⟨rfl, rfl, rfl, rfl, ?_⟩; simp [monitor, captured]
  | some b =>
    unfold monitor captured
    cases hp : s.pausedThisCycle <;> cases hr : s.tready hasTready <;> simp [hp]

/-- The sink, as the coordinator sees it. -/
def asEnd (I : Interface) (hasTready strict little : Bool) : SinkEnd Carried Frame Fault where
  State := AxisSink
  init := ⟨false, [], [], false, ⟨0, 0, 0, 0, 0, false⟩, false, false, 0, false, 0, [], false⟩
  take := take
  tickPre := tickPre hasTready
  samplePre := samplePre I hasTready strict
  tickPost := tickPost I little
  ready s := !hasTready || s.readyLine
  drivesReady := hasTready
  captured := captured
  Driven s := if hasTready then s.readyLine = !s.pausedThisCycle else s.pausedThisCycle = false
  Records := Records I little
  records_init := ⟨List.Forall₂.nil, rfl⟩
  take_spec t s := by
    cases t with
    | recv =>
        refine ⟨rfl, rfl, fun h => h, fun ks bs h => ⟨?_, h.2⟩⟩
        unfold take Take.frames
        rw [List.append_assoc, List.take_append_drop]
        exact h.1
    | read count =>
        refine ⟨rfl, rfl, fun h => h, fun ks bs h => ⟨?_, h.2⟩⟩
        unfold take Take.frames
        rw [List.append_nil]
        exact h.1
  tickPre_spec p s hp := by
    unfold tickPre
    cases hasTready with
    | true => exact ⟨rfl, fun h => (nomatch h), fun _ _ h => h⟩
    | false => exact ⟨hp rfl, fun _ => rfl, fun _ _ h => h⟩
  samplePre_spec i s s' hs h := by
    obtain ⟨hpaused, hready, hqueue, hpending, hcaptured⟩ := samplePre_ok h
    refine ⟨by rw [hready], ?_, by rw [hready, hpaused]; exact hs, fun ks bs hrec => ?_⟩
    · rw [hcaptured, tready]
      cases hasTready with
      | true =>
          rw [if_pos rfl] at hs
          rw [hs]
          simp
      | false =>
          rw [if_neg Bool.false_ne_true] at hs
          rw [hs]
          rfl
    · unfold Records
      rw [hqueue, hpending]
      exact hrec
  tickPost_spec s s' h ks bs hrec := by
    unfold tickPost at h
    unfold captured
    split at h
    · next hno =>
        obtain rfl := Except.ok.inj h
        rw [if_pos hno, Option.toList_none, List.append_nil]
        exact hrec
    · next hyes =>
        rw [if_neg hyes, Option.toList_some]
        unfold Records
        rw [cut_concat]
        dsimp only at h
        split at h
        · next hlast =>
            obtain ⟨frame, hframe, h⟩ := ok_of_bind h
            obtain rfl := Except.ok.inj h
            rw [if_pos hlast, ← hrec.2, ← List.append_assoc]
            exact ⟨List.rel_append hrec.1 (List.Forall₂.cons hframe List.Forall₂.nil), rfl⟩
        · next hlast =>
            obtain rfl := Except.ok.inj h
            rw [if_neg hlast, ← hrec.2]
            exact ⟨hrec.1, rfl⟩

end AxisSink

end Veriforge.Stream

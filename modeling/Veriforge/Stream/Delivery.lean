import Veriforge.Stream.Axis
import Veriforge.Stream.ReadyValid

/-! # Streams are delivered

Source and sink over any chain of stages, under any schedule of sends, pauses and foreign edges. -/

namespace Veriforge.Stream

open Pipeline (Stage cut)

/-- The beat that a sink has read, as a source would send it. -/
def Carried.asBeat (c : Carried) : Beat := ⟨c.tdata, c.tkeep, c.tdest, c.tuser, c.tid, c.tlast⟩

theorem Interface.asBeat_carry {I : Interface} {b : Beat} (h : I.Holds b) : (I.carry b).asBeat = b := by
  obtain ⟨hdata, hkeep, hdest, huser, hid, hlast⟩ := I.carry_of_holds h
  unfold Carried.asBeat
  rw [hdata, hkeep, hdest, huser, hid, hlast]

section Axis

variable {I : Interface} {srcTready snkTready strict srcLittle little : Bool} {C : Stage Carried}

/-- The beats that are left in the source are the end of those sent. -/
theorem exists_gone {n : Network (AxisSource.asEnd I srcTready srcLittle) C (AxisSink.asEnd I snkTready strict little)}
    {l : Log Frame Carried Frame} (hrun : Run _ _ _ n l) :
    ∃ gone, gone ++ AxisSource.beatsLeft n.src = l.sent.flatMap Frame.beats := by
  induction hrun with
  | start => exact ⟨[], rfl⟩
  | @step n n' l _ ev _ hact ih =>
    obtain ⟨gone, ih⟩ := ih
    cases ev with
    | send frame =>
      obtain rfl := Except.ok.inj hact
      refine ⟨gone, ?_⟩
      calc gone ++ AxisSource.beatsLeft (AxisSource.send frame n.src)
          = gone ++ (AxisSource.beatsLeft n.src ++ frame.beats) :=
            congrArg (gone ++ ·) (AxisSource.beatsLeft_send frame n.src)
        _ = gone ++ AxisSource.beatsLeft n.src ++ frame.beats := (List.append_assoc _ _ _).symm
        _ = (l.sent ++ [frame]).flatMap Frame.beats := by rw [ih, List.flatMap_append, List.flatMap_singleton]
    | take t =>
      obtain rfl := Except.ok.inj hact
      exact ⟨gone, ih⟩
    | tickPre ps pk =>
      obtain ⟨src, hsrc, hact⟩ := ok_of_bind hact
      obtain rfl := Except.ok.inj hact
      refine ⟨gone, ?_⟩
      change gone ++ AxisSource.beatsLeft src = l.sent.flatMap Frame.beats
      rw [AxisSource.beatsLeft_tickPre hsrc]
      exact ih
    | samplePre =>
      obtain ⟨snk, -, hact⟩ := ok_of_bind hact
      obtain rfl := Except.ok.inj hact
      exact ⟨gone, ih⟩
    | rise =>
      obtain ⟨snk, -, hact⟩ := ok_of_bind hact
      obtain rfl := Except.ok.inj hact
      obtain ⟨first, hfirst⟩ := AxisSource.beatsLeft_tickPost n.src
      refine ⟨gone ++ first, ?_⟩
      calc gone ++ first ++ AxisSource.beatsLeft (AxisSource.tickPost n.src)
          = gone ++ AxisSource.beatsLeft n.src := by rw [List.append_assoc, hfirst]
        _ = l.sent.flatMap Frame.beats := ih
    | foreign =>
      obtain rfl := Except.ok.inj hact
      exact ⟨gone, ih⟩

end Axis

/-- What the test sees of an AXI-Stream: the beats accepted, those held on the way and those left in the
source are the beats sent, as the wires carry them, and the very same where the wires hold them; the frames
queued are the accepted beats, cut after each with TLAST. -/
structure AxisDelivered (I : Interface) (little : Bool) (held : List Carried) (src : AxisSource) (snk : AxisSink)
    (l : Log Frame Carried Frame) : Prop where
  carried : l.accepted ++ held ++ src.beatsLeft.map I.carry = (l.sent.flatMap Frame.beats).map I.carry
  same : (∀ b ∈ l.sent.flatMap Frame.beats, I.Holds b) →
    l.accepted.map Carried.asBeat ++ held.map Carried.asBeat ++ src.beatsLeft = l.sent.flatMap Frame.beats
  frames : List.Forall₂ (fun beats frame => AxisSink.frameOf I little beats = .ok frame)
    (cut Carried.tlast l.accepted).1 (l.received ++ snk.queue)
  pending : snk.pending = (cut Carried.tlast l.accepted).2

/-- The same of a ready/valid stream: every item is a record. -/
structure StreamDelivered (B : Bundle) (held : List Record) (src : StreamSource) (snk : StreamSink)
    (l : Log Item Record Record) : Prop where
  carried : l.accepted ++ held ++ src.itemsLeft.map B.carry = l.sent.map B.carry
  records : l.received ++ snk.queue = l.accepted

theorem axisDelivered_of_run {I : Interface} {srcTready snkTready strict srcLittle little : Bool} {C : Stage Carried}
    (hopen : srcTready = false → C.Open ∧ snkTready = false)
    {n : Network (AxisSource.asEnd I srcTready srcLittle) C (AxisSink.asEnd I snkTready strict little)}
    {l : Log Frame Carried Frame} (hrun : Run _ _ _ n l) :
    AxisDelivered I little (C.contents n.chain) n.src n.snk l := by
  have h := hrun.delivers hopen
  have hcarried : l.accepted ++ C.contents n.chain ++ (AxisSource.beatsLeft n.src).map I.carry =
      (l.sent.flatMap Frame.beats).map I.carry := by
    rw [List.map_flatMap]
    exact h.conserved
  refine ⟨hcarried, fun hholds => ?_, h.recorded.1, h.recorded.2⟩
  obtain ⟨gone, hgone⟩ := exists_gone hrun
  have harrived : l.accepted ++ C.contents n.chain = gone.map I.carry := by
    rw [← hgone, List.map_append] at hcarried
    exact List.append_cancel_right hcarried
  have hback : (gone.map I.carry).map Carried.asBeat = gone := by
    rw [List.map_map]
    refine (List.map_congr_left fun b hb => ?_).trans (List.map_id gone)
    refine Interface.asBeat_carry (hholds b ?_)
    rw [← hgone]
    exact List.mem_append_left _ hb
  rw [← List.map_append, harrived, hback, hgone]

theorem streamDelivered_of_run {B : Bundle} {C : Stage Record}
    {n : Network (StreamSource.asEnd B) C StreamSink.asEnd} {l : Log Item Record Record} (hrun : Run _ _ _ n l) :
    StreamDelivered B (C.contents n.chain) n.src n.snk l := by
  have h := hrun.delivers fun hno : true = false => Bool.noConfusion hno
  refine ⟨?_, h.recorded⟩
  have hitems : l.sent.flatMap (StreamSource.asEnd B).items = l.sent.map B.carry := List.map_eq_flatMap.symm
  rw [← hitems]
  exact h.conserved

/-- Streams are delivered without loss, duplication or reordering, by AXI-Stream endpoints (where a source
without READY is connected to nothing that ever lowers it) and by ready/valid endpoints. -/
theorem delivered_of_run :
    (∀ (I : Interface) (srcTready snkTready strict srcLittle little : Bool) (stages : List (Stage Carried)),
      (srcTready = false → (∀ S ∈ stages, S.Open) ∧ snkTready = false) →
      ∀ (n : Network (AxisSource.asEnd I srcTready srcLittle) (Stage.chain stages)
          (AxisSink.asEnd I snkTready strict little)) (l : Log Frame Carried Frame),
        Run _ _ _ n l → AxisDelivered I little ((Stage.chain stages).contents n.chain) n.src n.snk l) ∧
    ∀ (B : Bundle) (stages : List (Stage Record))
        (n : Network (StreamSource.asEnd B) (Stage.chain stages) StreamSink.asEnd) (l : Log Item Record Record),
      Run _ _ _ n l → StreamDelivered B ((Stage.chain stages).contents n.chain) n.src n.snk l := by
  refine ⟨fun I srcTready snkTready strict srcLittle little stages hready n l hrun => ?_,
    fun B stages n l hrun => streamDelivered_of_run hrun⟩
  refine axisDelivered_of_run (fun hno => ?_) hrun
  obtain ⟨hstages, hsnk⟩ := hready hno
  exact ⟨Stage.open_chain hstages, hsnk⟩

/-! ## A frame of two beats -/

/-- An interface of one byte, with TLAST. -/
def byteInterface : Interface := ⟨8, true, none, none, none, none⟩

theorem eight_pos : 0 < 8 := by decide

/-- Two bytes. -/
def twoBytes : Frame where
  layout := ⟨1, 8, true, Nat.one_pos, eight_pos⟩
  elements := [⟨5, true, 0, 0, 0, false⟩, ⟨7, true, 0, 0, 0, true⟩]
  fits := by decide

/-- The first byte goes through a register while the source is paused, after the edge of another clock. -/
theorem delivered_of_run_byte :
    ∃ (n : Network (AxisSource.asEnd byteInterface true true) (Stage.chain [Stage.register Carried])
        (AxisSink.asEnd byteInterface true true true)) (l : Log Frame Carried Frame),
      l.sent = [twoBytes] ∧ l.accepted = [⟨5, 1, 0, 0, 0, false⟩] ∧ AxisSource.beatsLeft n.src = [⟨7, 1, 0, 0, 0, true⟩] ∧
        AxisDelivered byteInterface true ((Stage.chain [Stage.register Carried]).contents n.chain) n.src n.snk l := by
  have h0 : Run (AxisSource.asEnd byteInterface true true) (Stage.chain [Stage.register Carried])
      (AxisSink.asEnd byteInterface true true true) _ _ := .start
  have h1 := h0.step (.send twoBytes) trivial rfl
  have h2 := h1.step (.tickPre false true) ⟨rfl, fun h => Bool.noConfusion h⟩ rfl
  have h3 := h2.step .samplePre rfl rfl
  have h4 := h3.step .rise rfl rfl
  have h5 := h4.step (.tickPre true true) ⟨rfl, fun h => Bool.noConfusion h⟩ rfl
  have h6 := h5.step .samplePre rfl rfl
  have h7 := h6.step .foreign rfl rfl
  have h8 := h7.step (.tickPre true false) ⟨rfl, fun h => Bool.noConfusion h⟩ rfl
  have h9 := h8.step .samplePre rfl rfl
  have h10 := h9.step .rise rfl rfl
  refine ⟨_, _, ?_, ?_, ?_, delivered_of_run.1 byteInterface true true true true true [Stage.register Carried]
    (fun h => Bool.noConfusion h) _ _ h10⟩
  · rfl
  · rfl
  · rfl

end Veriforge.Stream

import Veriforge.Dict
import Veriforge.Stream.Coordinator
import Veriforge.Stream.Frame

/-! # Ready/valid stream endpoints

`StreamSource` and `StreamSink`: one item for each handshake, no frames. -/

namespace Veriforge.Stream

/-- An item as it is sent: the data, and a value for some of the sideband roles. -/
structure Item where
  data : Int
  sideband : List (String × Int)

/-- An item as a sink reads it. -/
structure Record where
  data : Nat
  sideband : List (String × Nat)
  deriving DecidableEq

/-- The `signals` besides VALID and READY: the width of the data port, and the sideband roles with theirs. -/
structure Bundle where
  data : Option Nat
  sideband : List (String × Nat)

/-- What arrives of an item: every value cut to its wire, 0 for a role without a value. -/
def Bundle.carry (B : Bundle) (item : Item) : Record where
  data := Interface.onWire item.data B.data
  sideband := B.sideband.map fun port => (port.1, Interface.onWire ((dictGet port.1 item.sideband).getD 0) (some port.2))

/-! ## The source -/

/-- `StreamSource`; `driven` are the lines. -/
structure StreamSource where
  pausedThisCycle : Bool
  queue : List Item
  current : Option Item
  sampledHandshake : Bool
  driven : Option Record

namespace StreamSource

variable (B : Bundle)

/-- The next item becomes the current one. -/
def advance (s : StreamSource) : StreamSource :=
  match s.current, s.queue with
  | none, item :: rest => { s with current := some item, queue := rest }
  | _, _ => s

def drive (s : StreamSource) : StreamSource :=
  { s with driven := if s.pausedThisCycle then none else s.current.map B.carry }

def tickPre (paused : Bool) (s : StreamSource) : StreamSource := { s with pausedThisCycle := paused }.advance.drive B

def samplePre (ready : Bool) (s : StreamSource) : StreamSource :=
  { s with sampledHandshake := if s.pausedThisCycle || s.current.isNone then false else ready }

def tickPost (s : StreamSource) : StreamSource :=
  if s.pausedThisCycle || s.current.isNone then s
  else if s.sampledHandshake then { s with current := none }
  else s

/-- `send`. -/
def send (item : Item) (s : StreamSource) : StreamSource := { s with queue := s.queue ++ [item] }

/-- The items that are left, in order. -/
def itemsLeft (s : StreamSource) : List Item := s.current.toList ++ s.queue

theorem itemsLeft_advance (s : StreamSource) : s.advance.itemsLeft = s.itemsLeft := by
  unfold advance
  split
  · next item rest hcurrent hqueue =>
    unfold itemsLeft
    rw [hcurrent, hqueue]
    rfl
  · rfl

/-- The source, as the coordinator sees it. -/
def asEnd (B : Bundle) : SourceEnd Item Record Fault where
  State := StreamSource
  init := ⟨false, [], none, false, none⟩
  send := send
  tickPre paused s := .ok (tickPre B paused s)
  samplePre := samplePre
  tickPost := tickPost
  offer := driven
  readsReady := true
  items item := [B.carry item]
  left s := s.itemsLeft.map B.carry
  Driven s := s.driven = if s.pausedThisCycle then none else s.current.map B.carry
  took s := !s.pausedThisCycle && s.current.isSome && s.sampledHandshake
  left_init := rfl
  left_send item s := by
    unfold itemsLeft send
    rw [← List.append_assoc, List.map_append]
    rfl
  send_same _ _ := ⟨rfl, rfl, fun h => h⟩
  left_tickPre p s s' h := by
    obtain rfl := Except.ok.inj h
    refine ⟨?_, rfl⟩
    change List.map B.carry { s with pausedThisCycle := p }.advance.itemsLeft = _
    rw [itemsLeft_advance]
    rfl
  offer_first s hs x hx := by
    rw [hs] at hx
    split at hx
    · exact nomatch hx
    · obtain ⟨item, hitem, rfl⟩ := Option.map_eq_some_iff.mp hx
      unfold itemsLeft
      rw [hitem]
      rfl
  samplePre_spec ready s hs := by
    refine ⟨rfl, rfl, hs, ?_⟩
    unfold samplePre
    rw [hs]
    cases s.pausedThisCycle <;> cases s.current <;> cases ready <;> rfl
  left_tickPost s := by
    unfold tickPost itemsLeft
    cases hp : s.pausedThisCycle <;> cases hc : s.current <;> cases hs : s.sampledHandshake <;> simp [hc]

end StreamSource

/-! ## The sink -/

/-- `StreamSink`; `readyLine` is what it drives. -/
structure StreamSink where
  pausedThisCycle : Bool
  queue : List Record
  sampledHandshake : Bool
  sampled : Record
  readyLine : Bool

namespace StreamSink

def tickPre (paused : Bool) (s : StreamSink) : StreamSink :=
  { s with pausedThisCycle := paused, readyLine := !paused }

def samplePre (i : Option Record) (s : StreamSink) : StreamSink :=
  let s := { s with sampledHandshake := false }
  if s.pausedThisCycle then s
  else
    match i with
    | some r => if s.readyLine then { s with sampledHandshake := true, sampled := r } else s
    | none => s

def tickPost (s : StreamSink) : StreamSink :=
  if s.pausedThisCycle || !s.sampledHandshake then s else { s with queue := s.queue ++ [s.sampled] }

/-- `recv` takes the first record; `read` as many as it is asked for, or all. -/
def take (t : Take) (s : StreamSink) : List Record × StreamSink :=
  let n :=
    match t with
    | .recv => 1
    | .read count => if count < 0 ∨ (s.queue.length : Int) < count then s.queue.length else count.toNat
  (s.queue.take n, { s with queue := s.queue.drop n })

/-- The record that `tick_post` takes. -/
def captured (s : StreamSink) : Option Record := if s.pausedThisCycle || !s.sampledHandshake then none else some s.sampled

/-- The sink, as the coordinator sees it. -/
def asEnd : SinkEnd Record Record Fault where
  State := StreamSink
  init := ⟨false, [], false, ⟨0, []⟩, false⟩
  take := take
  tickPre := tickPre
  samplePre i s := .ok (samplePre i s)
  tickPost s := .ok (tickPost s)
  ready := readyLine
  drivesReady := true
  captured := captured
  Driven s := s.readyLine = !s.pausedThisCycle
  Records taken accepted s := taken ++ s.queue = accepted
  records_init := rfl
  take_spec t s := by
    refine ⟨rfl, rfl, fun h => h, fun ks bs h => ?_⟩
    unfold take
    rw [List.append_assoc, List.take_append_drop]
    exact h
  tickPre_spec _ _ _ := ⟨rfl, fun h => (nomatch h), fun _ _ h => h⟩
  samplePre_spec i s s' hs h := by
    obtain rfl := Except.ok.inj h
    unfold samplePre captured
    rw [hs]
    cases hp : s.pausedThisCycle <;> cases i <;> simp [hp]
  tickPost_spec s s' h ks bs hrec := by
    obtain rfl := Except.ok.inj h
    unfold tickPost captured
    split
    · rw [Option.toList_none, List.append_nil]
      exact hrec
    · rw [Option.toList_some, ← hrec, List.append_assoc]

end StreamSink

end Veriforge.Stream

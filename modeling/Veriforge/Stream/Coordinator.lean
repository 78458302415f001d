import Veriforge.Except
import Veriforge.Pipeline

/-! # The coordinators of stream endpoints

`EndpointCoordinator.step` and `MultiDomainRunner.step` ask of an endpoint only that it has the phases
`tick_pre`, `sample_pre` and `tick_post`. With the phases of a source and of a sink come the laws that make
them one: a source offers what it has left in order, a sink records what it accepts. -/

namespace Veriforge.Stream

open Pipeline (Stage)

/-- What a test takes from the queue of a sink: `recv()` or `read(count)`. -/
inductive Take where
  | recv
  | read (count : Int)

/-- A source that sends `ι` as items of `β`. -/
structure SourceEnd (ι β ε : Type) where
  State : Type
  init : State
  send : ι → State → State
  tickPre : Bool → State → Except ε State
  samplePre : Bool → State → State
  tickPost : State → State
  /-- What it drives. -/
  offer : State → Option β
  /-- Whether it has a READY to look at. -/
  readsReady : Bool
  items : ι → List β
  left : State → List β
  /-- What it drives is what it means to offer. -/
  Driven : State → Prop
  took : State → Bool
  left_init : left init = []
  left_send : ∀ x s, left (send x s) = left s ++ items x
  send_same : ∀ x s, offer (send x s) = offer s ∧ took (send x s) = took s ∧ (Driven s → Driven (send x s))
  left_tickPre : ∀ p s s', tickPre p s = .ok s' → left s' = left s ∧ Driven s'
  offer_first : ∀ s, Driven s → ∀ x, offer s = some x → (left s).head? = some x
  samplePre_spec : ∀ ready s, Driven s → left (samplePre ready s) = left s ∧ offer (samplePre ready s) = offer s ∧
    Driven (samplePre ready s) ∧ took (samplePre ready s) = ((offer s).isSome && (!readsReady || ready))
  left_tickPost : ∀ s, left (tickPost s) = if took s then (left s).tail else left s

/-- A sink that accepts items of `β` and queues `κ`. -/
structure SinkEnd (β κ ε : Type) where
  State : Type
  init : State
  take : Take → State → List κ × State
  tickPre : Bool → State → State
  samplePre : Option β → State → Except ε State
  tickPost : State → Except ε State
  /-- READY, high where there is none. -/
  ready : State → Bool
  /-- Whether it has a READY to drive. -/
  drivesReady : Bool
  captured : State → Option β
  Driven : State → Prop
  /-- What its queue, with what has been taken from it, is to what it has accepted. -/
  Records : List κ → List β → State → Prop
  records_init : Records [] [] init
  take_spec : ∀ t s, ready (take t s).2 = ready s ∧ captured (take t s).2 = captured s ∧
    (Driven s → Driven (take t s).2) ∧ ∀ ks bs, Records ks bs s → Records (ks ++ (take t s).1) bs (take t s).2
  tickPre_spec : ∀ p s, (drivesReady = false → p = false) → Driven (tickPre p s) ∧
    (drivesReady = false → ready (tickPre p s) = true) ∧ ∀ ks bs, Records ks bs s → Records ks bs (tickPre p s)
  samplePre_spec : ∀ i s s', Driven s → samplePre i s = .ok s' →
    ready s' = ready s ∧ captured s' = (if ready s then i else none) ∧ Driven s' ∧
      ∀ ks bs, Records ks bs s → Records ks bs s'
  tickPost_spec : ∀ s s', tickPost s = .ok s' → ∀ ks bs, Records ks bs s → Records ks (bs ++ (captured s).toList) s'

/-- Where a step of the coordinator is. -/
inductive Phase where
  | idle
  | driven
  | sampled
  deriving DecidableEq

/-- What happens: the test sends or takes something, which it may do at any time; or a step goes on. A
rising edge of this domain ends it; so does one of another domain, or the end of the simulation. -/
inductive Event (ι : Type) where
  | send (x : ι)
  | take (t : Take)
  | tickPre (sourcePaused sinkPaused : Bool)
  | samplePre
  | rise
  | foreign

section Network

variable {ι β κ ε : Type} (S : SourceEnd ι β ε) (C : Stage β) (K : SinkEnd β κ ε)

/-- A source, what it is connected through, and a sink. -/
structure Network where
  src : S.State
  chain : C.State
  snk : K.State
  phase : Phase

/-- What the test has sent, what the sink has accepted, and what the test has taken. -/
structure Log (ι β κ : Type) where
  sent : List ι
  accepted : List β
  received : List κ

variable {S C K}

namespace Network

/-- READY at the source. -/
def readyAtSource (n : Network S C K) : Bool := C.accepts n.chain (S.offer n.src) (K.ready n.snk)

/-- What the event makes of the endpoints and of what is between them. -/
def act (n : Network S C K) : Event ι → Except ε (Network S C K)
  | .send x => .ok { n with src := S.send x n.src }
  | .take t => .ok { n with snk := (K.take t n.snk).2 }
  | .tickPre ps pk => do
      let src ← S.tickPre ps n.src
      return { n with src := src, snk := K.tickPre pk n.snk, phase := .driven }
  | .samplePre => do
      let snk ← K.samplePre (C.offer n.chain (S.offer n.src)) n.snk
      return { n with src := S.samplePre n.readyAtSource n.src, snk := snk, phase := .sampled }
  | .rise => do
      let snk ← K.tickPost n.snk
      return {
        src := S.tickPost n.src
        chain := C.next n.chain (S.offer n.src) (K.ready n.snk)
        snk := snk
        phase := .idle }
  | .foreign => .ok { n with phase := .idle }

/-- The phases come in order; a sink without READY is not paused. -/
def Legitimate (n : Network S C K) : Event ι → Prop
  | .send _ => True
  | .take _ => True
  | .tickPre _ pk => n.phase = .idle ∧ (K.drivesReady = false → pk = false)
  | .samplePre => n.phase = .driven
  | .rise => n.phase = .sampled
  | .foreign => n.phase = .sampled

end Network

/-- The log after the event. -/
def Log.watch (n : Network S C K) (l : Log ι β κ) : Event ι → Log ι β κ
  | .send x => { l with sent := l.sent ++ [x] }
  | .take t => { l with received := l.received ++ (K.take t n.snk).1 }
  | .rise => { l with accepted := l.accepted ++ (K.captured n.snk).toList }
  | _ => l

variable (S C K)

/-- The runs. -/
inductive Run : Network S C K → Log ι β κ → Prop where
  | start : Run ⟨S.init, C.init, K.init, .idle⟩ ⟨[], [], []⟩
  | step {n n' : Network S C K} {l : Log ι β κ} (h : Run n l) (ev : Event ι) (hlegit : n.Legitimate ev)
      (hact : n.act ev = .ok n') : Run n' (l.watch n ev)

variable {S C K}

/-- What holds at every moment: what has been accepted, what is held on the way and what is left in the
source are what has been sent. -/
structure Delivers (n : Network S C K) (l : Log ι β κ) : Prop where
  conserved : l.accepted ++ C.contents n.chain ++ S.left n.src = l.sent.flatMap S.items
  recorded : K.Records l.received l.accepted n.snk

/-- With what the phase of the step has prepared. -/
structure Prepared (n : Network S C K) (l : Log ι β κ) : Prop extends Delivers n l where
  source : n.phase ≠ .idle → S.Driven n.src
  sink : n.phase ≠ .idle → K.Driven n.snk
  ready : n.phase ≠ .idle → K.drivesReady = false → K.ready n.snk = true
  took : n.phase = .sampled → S.took n.src = ((S.offer n.src).isSome && n.readyAtSource)
  captured : n.phase = .sampled → (K.captured n.snk).toList = C.given n.chain (S.offer n.src) (K.ready n.snk)

namespace Prepared

variable {n n' : Network S C K} {l : Log ι β κ}

theorem start : Prepared (⟨S.init, C.init, K.init, .idle⟩ : Network S C K) ⟨[], [], []⟩ where
  conserved := by simp [C.contents_init, S.left_init]
  recorded := K.records_init
  source h := absurd rfl h
  sink h := absurd rfl h
  ready h := absurd rfl h
  took h := nomatch h
  captured h := nomatch h

theorem send (h : Prepared n l) (x : ι) :
    Prepared { n with src := S.send x n.src } { l with sent := l.sent ++ [x] } := by
  obtain ⟨hoffer, htook, hdriven⟩ := S.send_same x n.src
  refine ⟨⟨?conserved, ?recorded⟩, ?source, ?sink, ?ready, ?took, ?captured⟩
  case conserved =>
    dsimp only
    rw [S.left_send, ← List.append_assoc, h.conserved, List.flatMap_append, List.flatMap_singleton]
  case recorded => exact h.recorded
  case source => exact fun hp => hdriven (h.source hp)
  case sink => exact h.sink
  case ready => exact h.ready
  case took =>
    intro hp
    unfold Network.readyAtSource
    dsimp only
    rw [hoffer, htook]
    exact h.took hp
  case captured =>
    intro hp
    dsimp only
    rw [hoffer]
    exact h.captured hp

theorem take (h : Prepared n l) (t : Take) :
    Prepared { n with snk := (K.take t n.snk).2 } { l with received := l.received ++ (K.take t n.snk).1 } := by
  obtain ⟨hready, hcaptured, hdriven, hrecords⟩ := K.take_spec t n.snk
  refine ⟨⟨?conserved, ?recorded⟩, ?source, ?sink, ?ready, ?took, ?captured⟩
  case conserved => exact h.conserved
  case recorded => exact hrecords _ _ h.recorded
  case source => exact h.source
  case sink => exact fun hp => hdriven (h.sink hp)
  case ready => exact fun hp hd => hready.trans (h.ready hp hd)
  case took =>
    intro hp
    unfold Network.readyAtSource
    dsimp only
    rw [hready]
    exact h.took hp
  case captured =>
    intro hp
    dsimp only
    rw [hready, hcaptured]
    exact h.captured hp

theorem tickPre (h : Prepared n l) {ps pk : Bool} (hpk : K.drivesReady = false → pk = false) {src : S.State}
    (hsrc : S.tickPre ps n.src = .ok src) :
    Prepared { n with src := src, snk := K.tickPre pk n.snk, phase := .driven } l := by
  obtain ⟨hleft, hdriven⟩ := S.left_tickPre ps n.src src hsrc
  obtain ⟨hsink, hready, hrecords⟩ := K.tickPre_spec pk n.snk hpk
  refine ⟨⟨?conserved, ?recorded⟩, ?source, ?sink, ?ready, ?took, ?captured⟩
  case conserved =>
    dsimp only
    rw [hleft]
    exact h.conserved
  case recorded => exact hrecords _ _ h.recorded
  case source => exact fun _ => hdriven
  case sink => exact fun _ => hsink
  case ready => exact fun _ => hready
  case took => exact fun hp => nomatch hp
  case captured => exact fun hp => nomatch hp

/-- Where the source has no READY, nothing on the way may have one to lower. -/
theorem samplePre (hopen : S.readsReady = false → C.Open ∧ K.drivesReady = false) (h : Prepared n l)
    (hphase : n.phase = .driven) {snk : K.State}
    (hsnk : K.samplePre (C.offer n.chain (S.offer n.src)) n.snk = .ok snk) :
    Prepared { n with src := S.samplePre n.readyAtSource n.src, snk := snk, phase := .sampled } l := by
  have hbusy : n.phase ≠ .idle := by
    rw [hphase]
    exact Phase.noConfusion
  obtain ⟨hleft, hoffer, hdriven, htook⟩ := S.samplePre_spec n.readyAtSource n.src (h.source hbusy)
  obtain ⟨hready, hcaptured, hsink, hrecords⟩ := K.samplePre_spec _ n.snk snk (h.sink hbusy) hsnk
  have hsame : (Network.readyAtSource (S := S)
      { n with src := S.samplePre n.readyAtSource n.src, snk := snk, phase := .sampled }) = n.readyAtSource := by
    change C.accepts n.chain (S.offer (S.samplePre n.readyAtSource n.src)) (K.ready snk) = _
    rw [hoffer, hready]
    rfl
  refine ⟨⟨?conserved, ?recorded⟩, ?source, ?sink, ?ready, ?took, ?captured⟩
  case conserved =>
    dsimp only
    rw [hleft]
    exact h.conserved
  case recorded => exact hrecords _ _ h.recorded
  case source => exact fun _ => hdriven
  case sink => exact fun _ => hsink
  case ready => exact fun _ hd => hready.trans (h.ready hbusy hd)
  case took =>
    intro _
    rw [hsame]
    dsimp only
    rw [htook, hoffer]
    cases hreads : S.readsReady with
    | true => simp
    | false =>
      obtain ⟨hC, hK⟩ := hopen hreads
      have hhigh : n.readyAtSource = true := by
        unfold Network.readyAtSource
        rw [h.ready hbusy hK]
        exact hC _ _
      rw [hhigh]
      rfl
  case captured =>
    intro _
    dsimp only
    rw [hcaptured, hoffer, hready]
    unfold Stage.given
    split <;> rfl

theorem rise (h : Prepared n l) (hphase : n.phase = .sampled) {snk : K.State} (hsnk : K.tickPost n.snk = .ok snk) :
    Prepared (⟨S.tickPost n.src, C.next n.chain (S.offer n.src) (K.ready n.snk), snk, .idle⟩ : Network S C K)
      { l with accepted := l.accepted ++ (K.captured n.snk).toList } := by
  have hbusy : n.phase ≠ .idle := by
    rw [hphase]
    exact Phase.noConfusion
  refine ⟨⟨?conserved, ?recorded⟩, ?source, ?sink, ?ready, ?took, ?captured⟩
  case conserved =>
    dsimp only
    rw [S.left_tickPost, h.took hphase, h.captured hphase]
    exact C.conserves_cycle h.conserved (S.offer_first n.src (h.source hbusy)) (K.ready n.snk)
  case recorded => exact K.tickPost_spec n.snk snk hsnk _ _ h.recorded
  case source => exact fun hp => absurd rfl hp
  case sink => exact fun hp => absurd rfl hp
  case ready => exact fun hp => absurd rfl hp
  case took => exact fun hp => nomatch hp
  case captured => exact fun hp => nomatch hp

theorem foreign (h : Prepared n l) : Prepared { n with phase := .idle } l where
  conserved := h.conserved
  recorded := h.recorded
  source hp := absurd rfl hp
  sink hp := absurd rfl hp
  ready hp := absurd rfl hp
  took hp := nomatch hp
  captured hp := nomatch hp

/-- Every event. -/
theorem step (hopen : S.readsReady = false → C.Open ∧ K.drivesReady = false) (h : Prepared n l) {ev : Event ι}
    (hlegit : n.Legitimate ev) (hact : n.act ev = .ok n') : Prepared n' (l.watch n ev) := by
  cases ev with
  | send x =>
    obtain rfl := Except.ok.inj hact
    exact h.send x
  | take t =>
    obtain rfl := Except.ok.inj hact
    exact h.take t
  | tickPre ps pk =>
    obtain ⟨src, hsrc, hact⟩ := ok_of_bind hact
    obtain rfl := Except.ok.inj hact
    exact h.tickPre hlegit.2 hsrc
  | samplePre =>
    obtain ⟨snk, hsnk, hact⟩ := ok_of_bind hact
    obtain rfl := Except.ok.inj hact
    exact h.samplePre hopen hlegit hsnk
  | rise =>
    obtain ⟨snk, hsnk, hact⟩ := ok_of_bind hact
    obtain rfl := Except.ok.inj hact
    exact h.rise hlegit hsnk
  | foreign =>
    obtain rfl := Except.ok.inj hact
    exact h.foreign

end Prepared

/-- Every run delivers. -/
theorem Run.delivers (hopen : S.readsReady = false → C.Open ∧ K.drivesReady = false) {n : Network S C K}
    {l : Log ι β κ} (hrun : Run S C K n l) : Delivers n l := by
  have h : Prepared n l := by
    induction hrun with
    | start => exact Prepared.start
    | step _ ev hlegit hact ih => exact ih.step hopen hlegit hact
  exact h.toDelivers

end Network

end Veriforge.Stream

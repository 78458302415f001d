import Veriforge.Except
import Veriforge.AxiLite.Responder

/-! # The strict mode of the AXI4-Lite responder

`_on_time_step` runs after the outputs have followed a rising edge and before READY is driven anew: what strict mode
remembers of an edge is VALID and the payload of the cycle after it, but READY of the cycle before. Where READY is the
same in both, it reports exactly the channels that break a handshake (`raises_iff_violation`). -/

namespace Veriforge.AxiLite

open Responder (truthy)

/-! ## Channels -/

/-- The channels that strict mode watches. -/
inductive RequestChannel
  | aw | w | ar
  deriving DecidableEq

namespace RequestChannel

def valid (o : Observed) : RequestChannel → Option Nat
  | aw => o.awvalid
  | w => o.wvalid
  | ar => o.arvalid

def payload (o : Observed) : RequestChannel → List (Option Nat)
  | aw => [o.awaddr]
  | w => [o.wdata, o.wstrb]
  | ar => [o.araddr]

def ready (s : Responder) : RequestChannel → Option Nat
  | aw => s.awready
  | w => s.wready
  | ar => s.arready

def unacked (s : Responder) : RequestChannel → Bool
  | aw => s.strictAw.unacked
  | w => s.strictW.unacked
  | ar => s.strictAr.unacked

def snapshot (s : Responder) : RequestChannel → List Nat
  | aw => [s.strictAw.snapshot]
  | w => [s.strictW.snapshot.1, s.strictW.snapshot.2]
  | ar => [s.strictAr.snapshot]

/-- The payload as strict mode reads it. -/
def read (o : Observed) (ch : RequestChannel) : List Nat := (ch.payload o).map fun p => p.getD 0

end RequestChannel

theorem truthy_eq_false {signal : Option Nat} : truthy signal = false ↔ signal = none ∨ signal = some 0 := by
  cases signal with
  | none => simp [truthy]
  | some v => simp [truthy]

/-- A check that raises goes before the rest. -/
theorem raiseIf_ok {ε α : Type} {p : Prop} [Decidable p] {e : ε} {rest : Except ε α} {a : α} :
    (if p then (throw e : Except ε PUnit) >>= fun _ => rest else rest) = .ok a ↔ ¬ p ∧ rest = .ok a := by
  split
  · rename_i h
    exact ⟨fun hthrow => (nomatch hthrow), fun hno => absurd h hno.1⟩
  · rename_i h
    exact (and_iff_right h).symm

theorem raiseIf_last {ε : Type} {p : Prop} [Decidable p] {e : ε} :
    (if p then (throw e : Except ε PUnit) else pure PUnit.unit) = .ok () ↔ ¬ p := by
  split
  · rename_i h
    exact ⟨fun hthrow => (nomatch hthrow), fun hno => absurd h hno⟩
  · rename_i h
    exact ⟨fun _ => h, fun _ => rfl⟩

/-- Strict mode raises nothing exactly where the channels that wait have kept VALID and their payload. -/
theorem Responder.checkChannelStability_ok {o : Observed} {s : Responder} : s.checkChannelStability o = .ok () ↔
      ∀ ch : RequestChannel, ch.unacked s = true → truthy (ch.valid o) = true ∧ ch.read o = ch.snapshot s := by
  have hall : (∀ ch : RequestChannel, ch.unacked s = true → truthy (ch.valid o) = true ∧ ch.read o = ch.snapshot s) ↔
      (s.strictAw.unacked = true → truthy o.awvalid = true ∧ o.awaddr.getD 0 = s.strictAw.snapshot) ∧
      (s.strictW.unacked = true → truthy o.wvalid = true ∧ o.wdata.getD 0 = s.strictW.snapshot.1 ∧
        o.wstrb.getD 0 = s.strictW.snapshot.2) ∧
      (s.strictAr.unacked = true → truthy o.arvalid = true ∧ o.araddr.getD 0 = s.strictAr.snapshot) := by
    constructor
    · intro h
      have haw := h .aw
      have hw := h .w
      have har := h .ar
      simp only [RequestChannel.unacked, RequestChannel.valid, RequestChannel.read, RequestChannel.payload,
        RequestChannel.snapshot, List.map_cons, List.map_nil, List.cons.injEq, and_true] at haw hw har
      exact ⟨haw, hw, har⟩
    · rintro ⟨haw, hw, har⟩ ch
      cases ch with
      | aw =>
        simpa [RequestChannel.unacked, RequestChannel.valid, RequestChannel.read, RequestChannel.payload,
          RequestChannel.snapshot] using haw
      | w =>
        simpa [RequestChannel.unacked, RequestChannel.valid, RequestChannel.read, RequestChannel.payload,
          RequestChannel.snapshot] using hw
      | ar =>
        simpa [RequestChannel.unacked, RequestChannel.valid, RequestChannel.read, RequestChannel.payload,
          RequestChannel.snapshot] using har
  have hlow : ∀ signal : Option Nat, truthy signal = true ↔ ¬ (signal = none ∨ signal = some 0) := by
    intro signal
    rw [← truthy_eq_false, Bool.not_eq_false]
  rw [hall, hlow, hlow, hlow]
  unfold checkChannelStability
  have hnothing : (pure () : Except ProtocolError Unit) = .ok () ↔ True := iff_true_intro rfl
  cases s.strictAw.unacked <;> cases s.strictW.unacked <;> cases s.strictAr.unacked <;>
    simp only [Bool.false_eq_true, if_true, if_false, raiseIf_ok, raiseIf_last, ne_eq, not_not, false_implies,
      true_implies, true_and, and_true, and_assoc, hnothing]

theorem truthy_isHigh (paused : Bool) : truthy (some (if paused then 0 else 1)) = !paused := by
  cases paused <;> rfl

/-! ## Edges -/

namespace Responder

variable {cfg : Options}

/-- What a step that is no rising edge leaves alone. -/
structure SameStrict (s s' : Responder) : Prop where
  ready : ∀ ch : RequestChannel, ch.ready s' = ch.ready s
  unacked : ∀ ch : RequestChannel, ch.unacked s' = ch.unacked s
  snapshot : ∀ ch : RequestChannel, ch.snapshot s' = ch.snapshot s

theorem SameStrict.refl (s : Responder) : SameStrict s s := ⟨fun _ => rfl, fun _ => rfl, fun _ => rfl⟩

theorem SameStrict.trans {s s' s'' : Responder} (h : SameStrict s s') (h' : SameStrict s' s'') : SameStrict s s'' :=
  ⟨fun ch => (h'.ready ch).trans (h.ready ch), fun ch => (h'.unacked ch).trans (h.unacked ch),
    fun ch => (h'.snapshot ch).trans (h.snapshot ch)⟩

/-- The lines and what strict mode remembers. -/
theorem SameStrict.of_eq {s s' : Responder} (haw : s'.awready = s.awready) (hw : s'.wready = s.wready)
    (har : s'.arready = s.arready) (hsaw : s'.strictAw = s.strictAw) (hsw : s'.strictW = s.strictW)
    (hsar : s'.strictAr = s.strictAr) : SameStrict s s' := by
  constructor <;> intro ch <;> cases ch <;>
    simp only [RequestChannel.ready, RequestChannel.unacked, RequestChannel.snapshot, haw, hw, har, hsaw, hsw, hsar]

theorem sameStrict_acceptWrite (o : Observed) (s : Responder) : SameStrict s (s.acceptWrite cfg o) := by
  unfold acceptWrite
  split
  · exact .of_eq rfl rfl rfl rfl rfl rfl
  · split
    · exact .refl s
    · exact .of_eq rfl rfl rfl rfl rfl rfl

theorem sameStrict_acceptRead (o : Observed) (s : Responder) : SameStrict s (s.acceptRead cfg o) := by
  unfold acceptRead
  split
  · exact .of_eq rfl rfl rfl rfl rfl rfl
  · split
    · exact .refl s
    · exact .of_eq rfl rfl rfl rfl rfl rfl

theorem sameStrict_lowPhase (o : Observed) (s : Responder) : SameStrict s (s.lowPhase cfg o) :=
  ((sameStrict_acceptWrite o s).trans (sameStrict_acceptRead o _)).trans (.of_eq rfl rfl rfl rfl rfl rfl)

/-- A callback at which the clock does not rise. -/
theorem onTimeStep_quiet (cfg : Options) (o : Observed) (paused : Bool) {clk : Option Nat} {s : Responder}
    (h : ¬ (s.prevClk = 0 ∧ clk = some 1)) :
    ∃ s', s.onTimeStep cfg clk o paused = .ok s' ∧ SameStrict s s' ∧ s'.prevClk = clk.getD s.prevClk := by
  cases clk with
  | none => exact ⟨s, rfl, .refl s, rfl⟩
  | some v =>
    have hno : ¬ (s.prevClk = 0 ∧ v = 1) := fun hv => h ⟨hv.1, by rw [hv.2]⟩
    refine ⟨{ (if v = 0 then s.lowPhase cfg o else s) with prevClk := v }, ?_, ?_, rfl⟩
    · simp only [onTimeStep, if_neg hno]
      rfl
    · have hlow : SameStrict s (if v = 0 then s.lowPhase cfg o else s) := ?_
      · exact hlow.trans (.of_eq rfl rfl rfl rfl rfl rfl)
      split
      · exact sameStrict_lowPhase o s
      · exact .refl s

theorem remember_spec {α : Type} (valid ready : Option Nat) (payload : α) (u : Unacked α) :
    (remember valid ready payload u).unacked = (truthy valid && !truthy ready) ∧
      ((remember valid ready payload u).unacked = true → (remember valid ready payload u).snapshot = payload) := by
  unfold remember
  cases truthy valid && !truthy ready
  · exact ⟨rfl, fun h => nomatch h⟩
  · exact ⟨rfl, fun _ => rfl⟩

/-- What strict mode remembers of an edge. -/
theorem updateStrictState_spec (o : Observed) (s : Responder) (ch : RequestChannel) :
    ch.ready (s.updateStrictState o) = ch.ready s ∧
      ch.unacked (s.updateStrictState o) = (truthy (ch.valid o) && !truthy (ch.ready s)) ∧
        (ch.unacked (s.updateStrictState o) = true → ch.snapshot (s.updateStrictState o) = ch.read o) := by
  cases ch with
  | aw =>
    obtain ⟨hu, hs⟩ := remember_spec o.awvalid s.awready (o.awaddr.getD 0) s.strictAw
    exact ⟨rfl, hu, fun h => congrArg (fun x => [x]) (hs h)⟩
  | w =>
    obtain ⟨hu, hs⟩ := remember_spec o.wvalid s.wready (o.wdata.getD 0, o.wstrb.getD 0) s.strictW
    exact ⟨rfl, hu, fun h => congrArg (fun x : Nat × Nat => [x.1, x.2]) (hs h)⟩
  | ar =>
    obtain ⟨hu, hs⟩ := remember_spec o.arvalid s.arready (o.araddr.getD 0) s.strictAr
    exact ⟨rfl, hu, fun h => congrArg (fun x => [x]) (hs h)⟩

/-- A rising edge raises where strict mode does; otherwise it remembers the outputs after the edge, with the READY of
before. -/
theorem onTimeStep_rising (hstrict : cfg.strict = true) (o : Observed) (paused : Bool) {s : Responder}
    (hclk : s.prevClk = 0) :
    (∃ e, s.onTimeStep cfg (some 1) o paused = .error e ∧ s.checkChannelStability o ≠ .ok ()) ∨
    (∃ s', s.onTimeStep cfg (some 1) o paused = .ok s' ∧ s.checkChannelStability o = .ok () ∧ s'.prevClk = 1 ∧
      ∀ ch : RequestChannel, ch.ready s' = (if cfg.alwaysReady then some (if paused then 0 else 1) else ch.ready s) ∧
        ch.unacked s' = (truthy (ch.valid o) && !truthy (ch.ready s)) ∧
          (ch.unacked s' = true → ch.snapshot s' = ch.read o)) := by
  have hrising : s.onTimeStep cfg (some 1) o paused =
      (s.risingEdge cfg o paused).bind fun s => .ok { s with prevClk := 1 } := by
    simp only [onTimeStep, Nat.one_ne_zero, if_false, hclk, and_self, if_true]
    rfl
  have hedge : s.risingEdge cfg o paused = (s.checkChannelStability o).bind fun _ =>
      let t := s.updateStrictState o
      let ready := some (if paused then 0 else 1)
      let t := if cfg.alwaysReady then { t with awready := ready, wready := ready, arready := ready } else t
      .ok { t with b := t.b.retire, r := t.r.retire } := by
    simp only [risingEdge, hstrict, if_true]
    rfl
  rw [hrising, hedge]
  cases hcheck : s.checkChannelStability o with
  | error e => exact Or.inl ⟨e, rfl, fun h => by cases h⟩
  | ok u =>
    refine Or.inr ⟨_, rfl, rfl, rfl, fun ch => ?_⟩
    obtain ⟨hready, hunacked, hsnapshot⟩ := updateStrictState_spec o s ch
    cases cfg.alwaysReady with
    | false => cases ch <;> exact ⟨hready, hunacked, hsnapshot⟩
    | true => cases ch <;> exact ⟨rfl, hunacked, hsnapshot⟩

end Responder

/-! ## Runs -/

/-- From one rising edge to the next: the clock at the callbacks before it, READY just before it where the responder does
not drive it, the outputs after it, and what `pause` says at it. -/
structure Cycle where
  quiet : List (Option Nat)
  ready : RequestChannel → Option Nat
  after : Observed
  paused : Bool

/-- The clock is low at the last of the callbacks, and rises at none of them. -/
def LowAtLast : Nat → List (Option Nat) → Prop
  | prev, [] => prev = 0
  | prev, none :: cs => LowAtLast prev cs
  | prev, some v :: cs => ¬ (prev = 0 ∧ v = 1) ∧ LowAtLast v cs

/-- The callbacks of a cycle; the outputs before the edge are those that the last edge has left. -/
def Responder.cycle (cfg : Options) (before : Observed) (c : Cycle) (s : Responder) : Except ProtocolError Responder :=
  let s := if cfg.alwaysReady then s else { s with awready := c.ready .aw, wready := c.ready .w, arready := c.ready .ar }
  (c.quiet.foldlM (fun (s : Responder) clk => s.onTimeStep cfg clk before false) s).bind fun s =>
    s.onTimeStep cfg (some 1) c.after c.paused

/-- A run: the clock and the outputs at the start, and the cycles. -/
structure EdgeRun where
  clk : Option Nat
  initial : Observed
  cycles : Nat → Cycle

namespace EdgeRun

variable (cfg : Options) (r : EdgeRun)

/-- The outputs just before a rising edge. -/
def before : Nat → Observed
  | 0 => r.initial
  | k + 1 => (r.cycles k).after

/-- READY just before a rising edge. -/
def readyBefore (ch : RequestChannel) (k : Nat) : Bool :=
  if cfg.alwaysReady then
    match k with
    | 0 => true
    | k + 1 => !(r.cycles k).paused
  else truthy ((r.cycles k).ready ch)

/-- READY just before the edge before; at the first edge nothing waits. -/
def readyEarlier (ch : RequestChannel) : Nat → Bool
  | 0 => true
  | k + 1 => r.readyBefore cfg ch k

/-- The clock as the run has left it before a cycle. -/
def clkBefore : Nat → Nat
  | 0 => r.clk.getD 0
  | _ + 1 => 1

/-- The responder after so many edges. -/
def states (memory : Nat → Option Nat) : Nat → Except ProtocolError Responder
  | 0 => .ok (Responder.initial cfg memory r.clk none none none)
  | k + 1 => (states memory k).bind fun s => s.cycle cfg (r.before k) (r.cycles k)

/-- Just before an edge the channel has VALID without READY, and just before the next one it does not have VALID, or has
another payload. -/
def Violation (k : Nat) (ch : RequestChannel) : Prop :=
  truthy (ch.valid (r.before k)) = true ∧ r.readyBefore cfg ch k = false ∧
    (truthy (ch.valid (r.before (k + 1))) = false ∨ ch.payload (r.before (k + 1)) ≠ ch.payload (r.before k))

/-- A channel that has VALID just before an edge and changes at it has the same READY just before it as just before the
edge before; and where it waits for READY, its payload does not change between unknown and zero. -/
def Sampled (k : Nat) : Prop :=
  ∀ ch : RequestChannel, truthy (ch.valid (r.before k)) = true →
    truthy (ch.valid (r.before (k + 1))) = false ∨ ch.payload (r.before (k + 1)) ≠ ch.payload (r.before k) →
      r.readyEarlier cfg ch k = r.readyBefore cfg ch k ∧
        (r.readyBefore cfg ch k = false → truthy (ch.valid (r.before (k + 1))) = true →
          ch.read (r.before (k + 1)) ≠ ch.read (r.before k))

/-- What strict mode reports at an edge. -/
def Reported (k : Nat) (ch : RequestChannel) : Prop :=
  truthy (ch.valid (r.before k)) = true ∧ r.readyEarlier cfg ch k = false ∧
    (truthy (ch.valid (r.before (k + 1))) = false ∨ ch.read (r.before (k + 1)) ≠ ch.read (r.before k))

/-! ## What is reported -/

/-- The callbacks before an edge leave the clock low and nothing else that strict mode looks at. -/
theorem quiet_spec (cfg : Options) (o : Observed) : ∀ {qs : List (Option Nat)} {s : Responder}, LowAtLast s.prevClk qs →
    ∃ s', qs.foldlM (fun (s : Responder) clk => s.onTimeStep cfg clk o false) s = .ok s' ∧
      Responder.SameStrict s s' ∧ s'.prevClk = 0
  | [], s, h => ⟨s, rfl, .refl s, h⟩
  | clk :: qs, s, h => by
    have hno : ¬ (s.prevClk = 0 ∧ clk = some 1) := by
      cases clk with
      | none => exact fun hc => nomatch hc.2
      | some v => exact fun hc => h.1 ⟨hc.1, Option.some.inj hc.2⟩
    obtain ⟨s', hs', hsame, hclk⟩ := Responder.onTimeStep_quiet cfg o false hno
    have hlow : LowAtLast s'.prevClk qs := by
      rw [hclk]
      cases clk with
      | none => exact h
      | some v => exact h.2
    obtain ⟨s'', hs'', hsame', hclk'⟩ := quiet_spec cfg o hlow
    refine ⟨s'', ?_, hsame.trans hsame', hclk'⟩
    rw [List.foldlM_cons, hs']
    exact hs''

/-- The responder before an edge: what waits is what had VALID after the last edge, without the READY of before it. -/
structure Follows (k : Nat) (s : Responder) : Prop where
  clk : s.prevClk = r.clkBefore k
  ready : ∀ ch : RequestChannel, cfg.alwaysReady = true → truthy (ch.ready s) = r.readyBefore cfg ch k
  unacked : ∀ ch : RequestChannel, ch.unacked s = true → truthy (ch.valid (r.before k)) = true ∧
    r.readyEarlier cfg ch k = false ∧ ch.snapshot s = ch.read (r.before k)
  waits : ∀ ch : RequestChannel, truthy (ch.valid (r.before k)) = true → r.readyEarlier cfg ch k = false →
    ch.unacked s = true

variable {cfg r}

theorem Follows.initial (memory : Nat → Option Nat) :
    Follows cfg r 0 (Responder.initial cfg memory r.clk none none none) := by
  refine ⟨rfl, fun ch h => ?_, fun ch h => ?_, fun ch _ h => by cases h⟩
  · unfold readyBefore
    rw [if_pos h]
    cases ch <;> simp [RequestChannel.ready, Responder.initial, h, truthy]
  · cases ch <;> cases h

/-- The check raises nothing exactly if nothing is reported. -/
theorem Follows.check_iff {k : Nat} {s s' : Responder} (h : Follows cfg r k s)
    (hunacked : ∀ ch : RequestChannel, ch.unacked s' = ch.unacked s)
    (hsnapshot : ∀ ch : RequestChannel, ch.snapshot s' = ch.snapshot s) :
    s'.checkChannelStability (r.cycles k).after = .ok () ↔ ¬ ∃ ch, Reported cfg r k ch := by
  rw [Responder.checkChannelStability_ok]
  constructor
  · rintro hall ⟨ch, hvalid, hearlier, hchanged⟩
    have hu := h.waits ch hvalid hearlier
    obtain ⟨hkept, hread⟩ := hall ch ((hunacked ch).trans hu)
    rw [hsnapshot, (h.unacked ch hu).2.2] at hread
    rcases hchanged with hlow | hdiff
    · exact Bool.false_ne_true (hlow.symm.trans hkept)
    · exact hdiff hread
  · intro hnone ch hu
    rw [hunacked] at hu
    obtain ⟨hvalid, hearlier, hsnap⟩ := h.unacked ch hu
    rw [hsnapshot, hsnap]
    by_contra hno
    refine hnone ⟨ch, hvalid, hearlier, ?_⟩
    rw [not_and_or, Bool.not_eq_true] at hno
    exact hno

/-- A cycle raises exactly what is reported; otherwise the responder is again what the run has left. -/
theorem Follows.cycle (hstrict : cfg.strict = true) {k : Nat} (hclk : LowAtLast (r.clkBefore k) (r.cycles k).quiet)
    {s : Responder} (h : Follows cfg r k s) :
    (∃ e, s.cycle cfg (r.before k) (r.cycles k) = .error e ∧ ∃ ch, Reported cfg r k ch) ∨
    (∃ s', s.cycle cfg (r.before k) (r.cycles k) = .ok s' ∧ (¬ ∃ ch, Reported cfg r k ch) ∧ Follows cfg r (k + 1) s') := by
  -- the lines that the responder does not drive are what the cycle says
  obtain ⟨t, ht, htclk, htready, htunacked, htsnapshot⟩ : ∃ t : Responder,
      t = (if cfg.alwaysReady then s else { s with
        awready := (r.cycles k).ready .aw, wready := (r.cycles k).ready .w, arready := (r.cycles k).ready .ar }) ∧
      t.prevClk = r.clkBefore k ∧ (∀ ch : RequestChannel, truthy (ch.ready t) = r.readyBefore cfg ch k) ∧
      (∀ ch : RequestChannel, ch.unacked t = ch.unacked s) ∧ ∀ ch : RequestChannel, ch.snapshot t = ch.snapshot s := by
    refine ⟨_, rfl, ?_⟩
    cases halways : cfg.alwaysReady with
    | true => exact ⟨h.clk, fun ch => h.ready ch halways, fun _ => rfl, fun _ => rfl⟩
    | false =>
      refine ⟨h.clk, fun ch => ?_, fun ch => by cases ch <;> rfl, fun ch => by cases ch <;> rfl⟩
      unfold readyBefore
      rw [halways, if_neg Bool.false_ne_true]
      cases ch <;> rfl
  obtain ⟨u, hu, hsame, huclk⟩ := quiet_spec cfg (r.before k) (htclk ▸ hclk)
  have hcycle : s.cycle cfg (r.before k) (r.cycles k) =
      u.onTimeStep cfg (some 1) (r.cycles k).after (r.cycles k).paused := by
    unfold Responder.cycle
    rw [← ht]
    dsimp only
    rw [hu]
    rfl
  have hcheck : u.checkChannelStability (r.cycles k).after = .ok () ↔ ¬ ∃ ch, Reported cfg r k ch :=
    h.check_iff (fun ch => (hsame.unacked ch).trans (htunacked ch)) fun ch => (hsame.snapshot ch).trans (htsnapshot ch)
  have huready : ∀ ch : RequestChannel, truthy (ch.ready u) = r.readyBefore cfg ch k := fun ch => by
    rw [hsame.ready, htready]
  rw [hcycle]
  rcases Responder.onTimeStep_rising hstrict (r.cycles k).after (r.cycles k).paused huclk with
    ⟨e, he, hraise⟩ | ⟨s', hs', hok, hclk', hspec⟩
  · exact Or.inl ⟨e, he, not_not.mp fun hnone => hraise (hcheck.mpr hnone)⟩
  · refine Or.inr ⟨s', hs', hcheck.mp hok, hclk', fun ch halways => ?_, fun ch hw => ?_, fun ch hvalid hearlier => ?_⟩
    · rw [(hspec ch).1, if_pos halways, truthy_isHigh]
      unfold readyBefore
      rw [if_pos halways]
    · obtain ⟨-, hunacked, hsnapshot⟩ := hspec ch
      have hsnap := hsnapshot hw
      rw [hunacked, huready, Bool.and_eq_true, Bool.not_eq_true'] at hw
      exact ⟨hw.1, hw.2, hsnap⟩
    · rw [(hspec ch).2.1, huready]
      rw [show r.readyBefore cfg ch k = false from hearlier, Bool.not_false, Bool.and_true]
      exact hvalid

/-- The run raises exactly if something is reported. -/
theorem raises_iff_reported (hstrict : cfg.strict = true) (hclk : ∀ k, LowAtLast (r.clkBefore k) (r.cycles k).quiet)
    (memory : Nat → Option Nat) :
    (∃ n e, r.states cfg memory n = .error e) ↔ ∃ k ch, Reported cfg r k ch := by
  have hstates : ∀ n, (∃ e, r.states cfg memory n = .error e ∧ ∃ k ch, Reported cfg r k ch) ∨
      ∃ s, r.states cfg memory n = .ok s ∧ (∀ k < n, ¬ ∃ ch, Reported cfg r k ch) ∧ Follows cfg r n s := by
    intro n
    induction n with
    | zero => exact Or.inr ⟨_, rfl, fun k hk => absurd hk (Nat.not_lt_zero k), Follows.initial memory⟩
    | succ n ih =>
      rw [states]
      rcases ih with ⟨e, he, hrep⟩ | ⟨s, hs, hnone, hf⟩
      · exact Or.inl ⟨e, by rw [he]; rfl, hrep⟩
      · rw [hs]
        rcases hf.cycle hstrict (hclk n) with ⟨e, he, ch, hrep⟩ | ⟨s', hs', hno, hf'⟩
        · exact Or.inl ⟨e, he, n, ch, hrep⟩
        · refine Or.inr ⟨s', hs', fun k hk => ?_, hf'⟩
          rcases Nat.lt_succ_iff_lt_or_eq.mp hk with hk | rfl
          · exact hnone k hk
          · exact hno
  constructor
  · rintro ⟨n, e, he⟩
    rcases hstates n with ⟨_, _, hrep⟩ | ⟨s, hs, -⟩
    · exact hrep
    · rw [hs] at he
      cases he
  · rintro ⟨k, ch, hrep⟩
    rcases hstates (k + 1) with ⟨e, he, -⟩ | ⟨_, _, hnone, -⟩
    · exact ⟨k + 1, e, he⟩
    · exact absurd ⟨ch, hrep⟩ (hnone k (Nat.lt_succ_self k))

/-- Where every channel is sampled with the READY that it waits for, what is reported is what breaks a handshake. -/
theorem reported_iff_violation {k : Nat} (h : Sampled cfg r k) (ch : RequestChannel) :
    Reported cfg r k ch ↔ Violation cfg r k ch := by
  constructor
  · rintro ⟨hvalid, hearlier, hchanged⟩
    have hdiff : truthy (ch.valid (r.before (k + 1))) = false ∨
        ch.payload (r.before (k + 1)) ≠ ch.payload (r.before k) :=
      hchanged.imp_right fun hread hpayload => hread (congrArg (List.map fun p : Option Nat => p.getD 0) hpayload)
    exact ⟨hvalid, (h ch hvalid hdiff).1 ▸ hearlier, hdiff⟩
  · rintro ⟨hvalid, hready, hdiff⟩
    obtain ⟨hsame, hread⟩ := h ch hvalid hdiff
    refine ⟨hvalid, hsame.trans hready, ?_⟩
    cases hkept : truthy (ch.valid (r.before (k + 1))) with
    | false => exact Or.inl rfl
    | true => exact Or.inr (hread hready hkept)

/-- In a run in which every channel is sampled with the READY that it waits for, strict mode raises exactly if a handshake
is broken. -/
theorem raises_iff_violation (hstrict : cfg.strict = true) (hclk : ∀ k, LowAtLast (r.clkBefore k) (r.cycles k).quiet)
    (hsampled : ∀ k, Sampled cfg r k) (memory : Nat → Option Nat) :
    (∃ n e, r.states cfg memory n = .error e) ↔ ∃ k ch, Violation cfg r k ch := by
  rw [raises_iff_reported hstrict hclk]
  exact exists_congr fun k => exists_congr fun ch => reported_iff_violation (hsampled k) ch

end EdgeRun

/-! ## A read that is accepted late -/

/-- Strict mode, READY driven by the responder. -/
def strictOptions : Options := ⟨4, 0, 0, 0, 0, 0, false, false, true, true, true⟩

/-- No channel says VALID. -/
def idle : Observed := ⟨some 0, some 0, some 0, some 0, some 0, some 0, some 0, some 0, some 0⟩

/-- The read channel says VALID. -/
def reading : Observed := { idle with arvalid := some 1, araddr := some 4 }

/-- Paused at the first edge or not; a read is offered after the second and withdrawn after the third. -/
def lateRead (paused : Bool) : EdgeRun where
  clk := some 0
  initial := idle
  cycles k := ⟨[some 0], fun _ => none, if k = 1 then reading else idle, k == 0 && paused⟩

/-- Only the third edge finds VALID high, on the read channel. -/
theorem lateRead_valid {paused : Bool} {k : Nat} {ch : RequestChannel}
    (h : truthy (ch.valid ((lateRead paused).before k)) = true) : k = 2 := by
  match k with
  | 0 => cases ch <;> cases h
  | 1 => cases ch <;> cases h
  | 2 => rfl
  | k + 3 => cases ch <;> cases h

theorem lateRead_clk {paused : Bool} (k : Nat) :
    LowAtLast ((lateRead paused).clkBefore k) ((lateRead paused).cycles k).quiet := by
  cases k <;> exact ⟨fun h => Nat.zero_ne_one h.2, rfl⟩

theorem raises_iff_violation_read : (∃ n e, (lateRead false).states strictOptions (fun _ => none) n = .error e) ↔
    ∃ k ch, EdgeRun.Violation strictOptions (lateRead false) k ch := by
  refine EdgeRun.raises_iff_violation rfl lateRead_clk (fun k ch hvalid _ => ?_) fun _ => none
  obtain rfl := lateRead_valid hvalid
  exact ⟨rfl, fun hlow => nomatch hlow⟩

/-- READY is low before the second edge and high before the third, at which the read is accepted: strict mode reports the
read that ends. -/
theorem accepted_reported : (∃ n e, (lateRead true).states strictOptions (fun _ => none) n = .error e) ∧
    ¬ ∃ k ch, EdgeRun.Violation strictOptions (lateRead true) k ch := by
  refine ⟨⟨3, _, rfl⟩, ?_⟩
  rintro ⟨k, ch, hvalid, hlow, -⟩
  obtain rfl := lateRead_valid hvalid
  cases hlow

end Veriforge.AxiLite

import Veriforge.Axi4.Reads

/-! # Master and responder as a memory

A sequence of calls runs through, unless one of them times out, and a read returns the bytes that were last
written; but a write of some bytes of a word that the memory does not have sets its other bytes to 0, where a
read before it would have found the default. -/

namespace Veriforge.Axi4

open AxiLite (isHigh)

variable {ρ : Type} {rnd : Random ρ} {cfg : Options} {wires : Wires} {periods : Nat → Period}

/-! ## What the calls write and read -/

/-- The beats of a write: address, data and strobe. -/
def writtenBeats (cfg : Options) (wires : Wires) : Call → List (Nat × Nat × Nat)
  | .write call =>
      match Master.strbs cfg call with
      | .ok strbs =>
          (List.range call.data.length).map fun i => (beatAt cfg wires call.addr i, call.data.getD i 0, strbs.getD i 0)
      | .error _ => []
  | _ => []

/-- What a call returns when the memory has these bytes. -/
def Returns (cfg : Options) (wires : Wires) (bytes : Nat → Nat) : Call → List Nat → Prop
  | .write _, result => result = [cfg.defaultWriteResp]
  | .read call, result => result.length = call.length ∧ ∀ i < call.length, ∀ j < cfg.dataBytes,
      byteOf (result.getD i 0) j = bytes (beatAt cfg wires call.addr i + j)
  | .wait, result => result = []

/-- What a sequence of calls returns: each read has the last byte that an earlier write has written under its
strobe, or the byte that was there before. -/
def Expected (cfg : Options) (wires : Wires) : (Nat → Nat) → List Call → List (List Nat) → Prop
  | _, [], [] => True
  | bytes, call :: calls, result :: results => Returns cfg wires bytes call result ∧
      Expected cfg wires ((writtenBeats cfg wires call).foldl (writeBytes cfg.dataBytes) bytes) calls results
  | _, _, _ => False

/-- The words that the memory has after the beats. -/
def knownAfter (known : Nat → Bool) (beats : List (Nat × Nat × Nat)) : Nat → Bool :=
  beats.foldl (fun known beat => Function.update known beat.1 true) known

/-- Each beat is for a word that the memory has by then, or the bytes that it leaves are 0 in the default. -/
def Covers (cfg : Options) : (Nat → Bool) → List (Nat × Nat × Nat) → Prop
  | _, [] => True
  | known, beat :: beats =>
      (known beat.1 = true ∨ ∀ j < cfg.dataBytes, beat.2.2.testBit j = false → byteOf cfg.defaultReadValue j = 0) ∧
        Covers cfg (Function.update known beat.1 true) beats

theorem covers_append (known : Nat → Bool) (xs ys : List (Nat × Nat × Nat)) :
    Covers cfg known (xs ++ ys) ↔ Covers cfg known xs ∧ Covers cfg (knownAfter known xs) ys := by
  induction xs generalizing known with
  | nil => exact ⟨fun h => ⟨trivial, h⟩, fun h => h.2⟩
  | cons x xs ih =>
    change (_ ∧ Covers cfg _ (xs ++ ys)) ↔ (_ ∧ Covers cfg _ xs) ∧ Covers cfg (knownAfter _ xs) ys
    rw [ih, and_assoc]

/-- A beat as it goes over the wires. -/
def wired (cfg : Options) (beat : Nat × Nat × Nat) : Nat × Nat × Nat :=
  (beat.1, onWire (cfg.dataBytes * 8) beat.2.1, onWire cfg.dataBytes beat.2.2)

theorem testBit_onWire {width x i : Nat} (h : i < width) : (onWire width x).testBit i = x.testBit i := by
  unfold onWire
  rw [Nat.testBit_mod_two_pow, decide_eq_true h, Bool.true_and]

theorem writeBytes_wired (bytes : Nat → Nat) (beat : Nat × Nat × Nat) :
    writeBytes cfg.dataBytes bytes (wired cfg beat) = writeBytes cfg.dataBytes bytes beat := by
  funext a
  unfold writeBytes wired
  dsimp only
  by_cases hin : beat.1 ≤ a ∧ a < beat.1 + cfg.dataBytes
  · have hj : a - beat.1 < cfg.dataBytes := by omega
    have hbyte : byteOf (onWire (cfg.dataBytes * 8) beat.2.1) (a - beat.1) = byteOf beat.2.1 (a - beat.1) :=
      byteOf_ext fun b hb => testBit_onWire (by omega)
    rw [testBit_onWire hj, hbyte]
  · rw [if_neg fun hc => hin ⟨hc.1, hc.2.1⟩, if_neg fun hc => hin ⟨hc.1, hc.2.1⟩]

/-- The beats of a burst keep the memory in step with the bytes, if they are covered. -/
theorem agrees_stored (hstore : cfg.storeWrites = true) {known : Nat → Bool} {memory : Nat → Option Nat}
    {bytes : Nat → Nat} (beats : List (Nat × Nat × Nat)) (haligned : ∀ beat ∈ beats, cfg.dataBytes ∣ beat.1)
    (hknown : known = fun a => (memory a).isSome) (hcovers : Covers cfg known beats) (h : Agrees cfg memory bytes) :
    Agrees cfg ((beats.map (wired cfg)).foldl (store cfg) memory) (beats.foldl (writeBytes cfg.dataBytes) bytes) ∧
      knownAfter known beats = fun a => ((beats.map (wired cfg)).foldl (store cfg) memory a).isSome := by
  induction beats generalizing known memory bytes with
  | nil => exact ⟨h, hknown⟩
  | cons beat beats ih =>
    have hbeat : cfg.dataBytes ∣ (wired cfg beat).1 := haligned beat List.mem_cons_self
    have hcovered : Covered cfg memory (wired cfg beat) := by
      rcases hcovers.1 with hsome | hzero
      · rw [hknown] at hsome
        exact Or.inl hsome
      · refine Or.inr fun j hj hs => hzero j hj ?_
        rw [← hs]
        exact (testBit_onWire hj).symm
    have hagrees := (agrees_store_iff hstore h hbeat).mpr hcovered
    rw [writeBytes_wired] at hagrees
    have hafter : Function.update known beat.1 true = fun a => (store cfg memory (wired cfg beat) a).isSome := by
      funext a
      unfold store wired
      rw [if_pos hstore, hknown]
      by_cases ha : a = beat.1
      · rw [ha, Function.update_self, Function.update_self]
        rfl
      · rw [Function.update_of_ne ha, Function.update_of_ne ha]
    exact ih (fun b hb => haligned b (List.mem_cons_of_mem _ hb)) hafter hcovers.2 hagrees

/-! ## Sequences of calls -/

/-- Between two calls: nothing is in hand, and the memory is in step with the bytes. -/
structure AtRest (cfg : Options) (bytes : Nat → Nat) (known : Nat → Bool) (sys : System ρ) : Prop where
  bus : Quiet sys.bus
  phase : Phase cfg sys.responder.memory none [] [] [] sys.responder
  agrees : Agrees cfg sys.responder.memory bytes
  known : known = fun a => (sys.responder.memory a).isSome

theorem atRest_initial (hconn : Connected cfg wires) (memory : Nat → Option Nat) (rng : ρ) {clk : Nat} (hclk : clk ≤ 1)
    (awready wready arready : Option Nat) :
    AtRest cfg (initialBytes cfg memory) (fun a => (memory a).isSome)
      (System.initial cfg wires memory rng clk awready wready arready) where
  bus := quiet_idle wires undriven
  phase :=
    { clk := by
        rcases Nat.le_one_iff_eq_zero_or_eq_one.mp hclk with rfl | rfl
        · exact Or.inl ⟨rfl, rfl, rfl, rfl⟩
        · exact Or.inr rfl
      memory := rfl
      w :=
        { pending := rfl
          done := fun _ hf => nomatch hf
          responses := rfl
          resp := rfl
          valid := rfl
          ready := fun _ => by
            change isHigh (if cfg.alwaysReady then some 1 else awready) = true
            rw [if_pos hconn.alwaysReady]
            rfl }
      r := ⟨[], [], (Invariant.start memory rng (some clk) awready wready arready).r, rfl⟩ }
  agrees := agrees_initial cfg memory
  known := rfl

section Calls

variable {bytes : Nat → Nat} {known : Nat → Bool} {sys : System ρ}

/-- A call: it times out, or it returns what is expected of it. -/
theorem perform_expected (rnd : Random ρ) (hconn : Connected cfg wires) (hperiods : ∀ k, (periods k).edge.aw = false)
    {call : Call} (hlegal : call.Legal cfg wires) (hcovers : Covers cfg known (writtenBeats cfg wires call))
    (h : AtRest cfg bytes known sys) :
    (∃ e : CallError, perform rnd cfg wires periods sys call = .error e ∧ e.isTimeout = true) ∨
      ∃ result sys', perform rnd cfg wires periods sys call = .ok (result, sys') ∧
        Returns cfg wires bytes call result ∧
        AtRest cfg ((writtenBeats cfg wires call).foldl (writeBytes cfg.dataBytes) bytes)
          (knownAfter known (writtenBeats cfg wires call)) sys' := by
  cases call with
  | write call =>
    obtain ⟨hburst, hresp, hlen⟩ := hlegal
    obtain ⟨strbs, hstrbs⟩ : ∃ strbs, Master.strbs cfg call = .ok strbs := by
      unfold Master.strbs
      cases hs : call.strb with
      | full => exact ⟨_, rfl⟩
      | same strb => exact ⟨_, rfl⟩
      | each strbs => exact ⟨strbs, if_neg (not_not_intro (hlen strbs hs))⟩
    have hbeats : writtenBeats cfg wires (.write call) = (List.range call.data.length).map fun i =>
        (beatAt cfg wires call.addr i, call.data.getD i 0, strbs.getD i 0) := by
      simp only [writtenBeats, hstrbs]
    have hstored : storedBeats cfg (callBurst cfg wires call.addr call.data.length call.txnId) (wireBeat cfg call strbs)
        sys.responder.memory call.data.length =
        ((writtenBeats cfg wires (.write call)).map (wired cfg)).foldl (store cfg) sys.responder.memory := by
      unfold storedBeats
      rw [hbeats, List.map_map]
      refine congrArg (List.foldl (store cfg) sys.responder.memory) (List.map_congr_left fun i _ => ?_)
      rw [hconn.beatAddr_eq]
      rfl
    rcases write_stores rnd hconn hperiods hburst hresp hstrbs h.bus h.phase with
      ⟨e, herror, htimeout⟩ | ⟨sys', hok, hbus, hphase⟩
    · refine Or.inl ⟨e, ?_, htimeout⟩
      simp only [perform, herror]
      rfl
    · have hperform : perform rnd cfg wires periods sys (.write call) = .ok ([cfg.defaultWriteResp], sys') := by
        simp only [perform, hok]
        rfl
      rw [hstored] at hphase
      obtain ⟨hagrees, hknown⟩ := agrees_stored hconn.storeWrites (writtenBeats cfg wires (.write call))
        (fun beat hb => by
          rw [hbeats] at hb
          obtain ⟨i, -, rfl⟩ := List.mem_map.mp hb
          exact hconn.aligned hburst.aligned i) h.known hcovers h.agrees
      have hmemory := hphase.memory
      refine Or.inr ⟨_, sys', hperform, rfl, hbus, ?_, ?_, ?_⟩
      · rw [hmemory]
        exact hphase
      · rw [hmemory]
        exact hagrees
      · rw [hmemory]
        exact hknown
  | read call =>
    obtain ⟨hburst, hresp⟩ := hlegal
    rcases read_returns rnd hconn hperiods hburst hresp h.bus h.phase with
      ⟨e, herror, htimeout⟩ | ⟨sys', hok, hbus, hphase⟩
    · exact Or.inl ⟨e, herror, htimeout⟩
    · refine Or.inr ⟨_, sys', hok, ⟨?_, fun i hi j hj => ?_⟩, hbus, ?_, ?_, ?_⟩
      · rw [List.length_map, length_burstLines]
        rfl
      · have hlen : i < (burstLines cfg (callBurst cfg wires call.addr call.length call.txnId,
            sys.responder.memory)).length := by
          rw [length_burstLines]
          exact hi
        have haddr := hconn.beatAddr_eq call.addr call.length call.txnId i
        rw [List.getD_eq_getElem _ _ (by rw [List.length_map]; exact hlen), List.getElem_map, getElem_burstLines hlen,
          ← haddr]
        exact byteOf_readBeat h.agrees (by rw [haddr]; exact hconn.aligned hburst.aligned i) hj
      · rw [hphase.memory]
        exact hphase
      · rw [hphase.memory]
        exact h.agrees
      · rw [hphase.memory]
        exact h.known
  | wait =>
    obtain ⟨haw, htakes⟩ : sys.responder.w.awFire sys.bus = false ∧
        Takes cfg sys.responder sys.bus sys.responder.memory sys.responder.memory none none [] [] :=
      takes_quiet h.bus.awvalid h.bus.wvalid
    obtain ⟨t, s₁, s', -, -, -, -, hsample, hstep, -, hphase⟩ :=
      h.phase.period_unread rnd hconn.alwaysReady hperiods h.bus.arvalid
        (fun hfire => absurd (haw.symm.trans hfire) (by decide)) htakes
    have hout : (if s₁.w.bvalid && isHigh sys.bus.bready then ([] : List (Nat × Nat)).tail else []) = [] := by
      split <;> rfl
    rw [hout] at hphase
    have hperform : perform rnd cfg wires periods sys .wait = .ok ([], ⟨s', sys.bus, sys.period + 1⟩) := by
      rw [perform, hsample]
      change (do
        let sys' ← raised (System.stepCycle rnd cfg periods { sys with responder := t })
        pure (([], sys') : List Nat × System ρ)) = _
      rw [hstep]
      rfl
    refine Or.inr ⟨_, _, hperform, rfl, h.bus, ?_, ?_, ?_⟩
    · rw [hphase.memory]
      exact hphase
    · rw [hphase.memory]
      exact h.agrees
    · rw [hphase.memory]
      exact h.known

/-- A sequence of calls. -/
theorem performAll_expected (rnd : Random ρ) (hconn : Connected cfg wires) (hperiods : ∀ k, (periods k).edge.aw = false)
    (calls : List Call) (hlegal : ∀ call ∈ calls, call.Legal cfg wires)
    (hcovers : Covers cfg known (calls.flatMap (writtenBeats cfg wires))) (h : AtRest cfg bytes known sys) :
    (∃ e : CallError, performAll rnd cfg wires periods calls sys = .error e ∧ e.isTimeout = true) ∨
      ∃ results sys', performAll rnd cfg wires periods calls sys = .ok (results, sys') ∧
        Expected cfg wires bytes calls results := by
  induction calls generalizing bytes known sys with
  | nil => exact Or.inr ⟨[], sys, rfl, trivial⟩
  | cons call calls ih =>
    rw [List.flatMap_cons, covers_append] at hcovers
    rcases perform_expected rnd hconn hperiods (hlegal call List.mem_cons_self) hcovers.1 h with
      ⟨e, herror, htimeout⟩ | ⟨result, sys₁, hok, hreturns, hrest⟩
    · refine Or.inl ⟨e, ?_, htimeout⟩
      simp only [performAll, herror]
      rfl
    · rcases ih (fun c hc => hlegal c (List.mem_cons_of_mem call hc)) hcovers.2 hrest with
        ⟨e, herror, htimeout⟩ | ⟨results, sys₂, hall, hexpected⟩
      · refine Or.inl ⟨e, ?_, htimeout⟩
        simp only [performAll, hok]
        change (performAll rnd cfg wires periods calls sys₁ >>= fun x => _) = _
        rw [herror]
        rfl
      · refine Or.inr ⟨result :: results, sys₂, ?_, hreturns, hexpected⟩
        simp only [performAll, hok]
        change (performAll rnd cfg wires periods calls sys₁ >>= fun x => _) = _
        rw [hall]
        rfl

end Calls

/-- In every sequence of calls whose write beats are covered, either a call times out or all return what a
memory returns. -/
theorem memory_of_calls (rnd : Random ρ) (cfg : Options) (wires : Wires) (periods : Nat → Period)
    (memory : Nat → Option Nat) (rng : ρ) (clk : Nat) (awready wready arready : Option Nat) (calls : List Call)
    (hconn : Connected cfg wires) (hclk : clk ≤ 1) (hperiods : ∀ k, (periods k).edge.aw = false)
    (hlegal : ∀ call ∈ calls, call.Legal cfg wires)
    (hcovers : Covers cfg (fun a => (memory a).isSome) (calls.flatMap (writtenBeats cfg wires))) :
    (∃ e : CallError, performAll rnd cfg wires periods calls
        (System.initial cfg wires memory rng clk awready wready arready) = .error e ∧ e.isTimeout = true) ∨
      ∃ results sys', performAll rnd cfg wires periods calls
          (System.initial cfg wires memory rng clk awready wready arready) = .ok (results, sys') ∧
        Expected cfg wires (initialBytes cfg memory) calls results :=
  performAll_expected rnd hconn hperiods calls hlegal hcovers
    (atRest_initial hconn memory rng hclk awready wready arready)

/-! ## Writes of a byte -/

/-- Wires of an address space of 256 bytes. -/
def byteWires : Wires := ⟨8, 8, 3, some 4⟩

/-- Each period has its two callbacks, and nothing is paused. -/
def evenPeriods (_ : Nat) : Period := ⟨[], unpaused, [], unpaused, unpaused⟩

/-- The least byte of the word at 0 is written, and the word is read. -/
def writeByte : List Call :=
  [.write ⟨0, [0x11], .same 1, none, 0, 0, 10⟩, .read ⟨0, 1, none, 0, 0, 10⟩]

/-- The responder of a 32-bit bus, with a value for the words that it does not have. -/
def defaultOptions (value : Nat) : Options := { wordOptions with defaultReadValue := value }

theorem connected_default (value : Nat) : Connected (defaultOptions value) byteWires :=
  ⟨rfl, rfl, ⟨2, rfl, by decide⟩, le_rfl⟩

theorem legal_writeByte (value : Nat) : ∀ call ∈ writeByte, call.Legal (defaultOptions value) byteWires := by
  have hburst : WholeBurst (defaultOptions value) byteWires 0 1 none :=
    ⟨le_rfl, by decide, rfl, Nat.dvd_zero _, fun _ _ => rfl⟩
  intro call hcall
  rcases List.mem_cons.mp hcall with rfl | hcall
  · exact ⟨hburst, rfl, fun _ h => nomatch h⟩
  · rw [List.mem_singleton.mp hcall]
    exact ⟨hburst, rfl⟩

theorem memory_of_calls_writeByte :
    (∃ e : CallError, performAll leastRandom (defaultOptions 0) byteWires evenPeriods writeByte
        (System.initial (defaultOptions 0) byteWires (fun _ => some 0x22222222) () 0 none none none) = .error e ∧
          e.isTimeout = true) ∨
      ∃ results sys', performAll leastRandom (defaultOptions 0) byteWires evenPeriods writeByte
          (System.initial (defaultOptions 0) byteWires (fun _ => some 0x22222222) () 0 none none none) =
            .ok (results, sys') ∧
        Expected (defaultOptions 0) byteWires (initialBytes (defaultOptions 0) fun _ => some 0x22222222) writeByte
          results :=
  memory_of_calls leastRandom (defaultOptions 0) byteWires evenPeriods _ () 0 none none none writeByte
    (connected_default 0) (Nat.zero_le 1) (fun _ => rfl) (legal_writeByte 0) ⟨Or.inl rfl, trivial⟩

/-- A byte that is written to a word that the memory does not have clears the other bytes of the word. -/
theorem default_bytes_cleared :
    ¬ ∀ (cfg : Options) (wires : Wires) (periods : Nat → Period) (memory : Nat → Option Nat) (clk : Nat)
        (awready wready arready : Option Nat) (calls : List Call), Connected cfg wires → clk ≤ 1 →
      (∀ k, (periods k).edge.aw = false) → (∀ call ∈ calls, call.Legal cfg wires) →
      (∃ e : CallError, performAll leastRandom cfg wires periods calls
          (System.initial cfg wires memory () clk awready wready arready) = .error e ∧ e.isTimeout = true) ∨
        ∃ results sys', performAll leastRandom cfg wires periods calls
            (System.initial cfg wires memory () clk awready wready arready) = .ok (results, sys') ∧
          Expected cfg wires (initialBytes cfg memory) calls results := by
  intro h
  obtain ⟨sys₁, hrun⟩ : ∃ sys₁, performAll leastRandom (defaultOptions 0xFFFFFFFF) byteWires evenPeriods writeByte
      (System.initial (defaultOptions 0xFFFFFFFF) byteWires (fun _ => none) () 0 none none none) =
        .ok ([[0], [0x11]], sys₁) := ⟨_, rfl⟩
  rcases h (defaultOptions 0xFFFFFFFF) byteWires evenPeriods (fun _ => none) 0 none none none writeByte
    (connected_default 0xFFFFFFFF) (Nat.zero_le 1) (fun _ => rfl) (legal_writeByte 0xFFFFFFFF) with
    ⟨e, herror, -⟩ | ⟨results, sys', hok, hexpected⟩
  · exact absurd (hrun.symm.trans herror) (by simp)
  · obtain ⟨rfl, -⟩ := Prod.mk.inj (Except.ok.inj (hrun.symm.trans hok))
    -- the second byte of the word
    have hbyte := hexpected.2.1.2 0 (by decide) 1 (by decide)
    exact absurd hbyte (by decide)

end Veriforge.Axi4

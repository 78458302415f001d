import Veriforge.AxiLite.Master

/-! # Calls of the AXI4-Lite master

The master takes a READY that is high right after an edge for one that was high before it. A call is
legal exactly when no READY rises at an edge while its VALID waits for it. -/

namespace Veriforge.AxiLite

open Handshake

variable {σ : Type} (c : Clock) (D : Subordinate σ)

/-! ## A cycle -/

namespace Bench

/-- The bench at the next rising edge. -/
def risen (b : Bench σ) (t : Nat) : Bench σ where
  time := t
  state := D.next b.state b.driven
  driven := b.driven
  seen := D.out (D.next b.state b.driven) b.driven
  edges := b.edges ++ [(b.driven, b.seen)]

theorem runToRise_eq {m : Nat} (hm : c.level m = false ∧ c.level (m + 1) = true) (fuel : Nat) :
    ∀ b : Bench σ, b.time ≤ m → fuel = m + 1 - b.time →
      (∀ k, b.time ≤ k → k < m → ¬ (c.level k = false ∧ c.level (k + 1) = true)) →
      runToRise c D fuel b = b.risen D (m + 1) := by
  induction fuel with
  | zero =>
    intro b hle hfuel _
    omega
  | succ fuel ih =>
    intro b hle hfuel hfirst
    rw [runToRise]
    by_cases hb : b.time = m
    · rw [if_pos (hb ▸ hm), runStep, if_pos (hb ▸ hm), hb]
      rfl
    · have hno := hfirst b.time le_rfl (by omega)
      have hstep : b.runStep c D = { b with time := b.time + 1 } := if_neg hno
      rw [if_neg hno, hstep, ih _ (by change b.time + 1 ≤ m; omega) (by change fuel = m + 1 - (b.time + 1); omega)]
      · rfl
      · exact fun k hk => hfirst k (by change b.time + 1 ≤ k at hk; omega)

/-- `_step_cycle` ends at a rising edge, and at the first. -/
theorem stepCycle_eq (b : Bench σ) : ∃ t, b.stepCycle c D = (b.settle D).risen D t := by
  obtain ⟨hle, hrise⟩ := Nat.find_spec (c.rises b.time)
  refine ⟨_, runToRise_eq c D hrise _ (b.settle D) hle rfl fun k hk hkm h => ?_⟩
  exact Nat.find_min (c.rises b.time) hkm ⟨hk, h⟩

@[simp] theorem stepCycle_state (b : Bench σ) : (b.stepCycle c D).state = D.next b.state b.driven := by
  obtain ⟨t, ht⟩ := stepCycle_eq c D b
  rw [ht]
  rfl

@[simp] theorem stepCycle_driven (b : Bench σ) : (b.stepCycle c D).driven = b.driven := by
  obtain ⟨t, ht⟩ := stepCycle_eq c D b
  rw [ht]
  rfl

@[simp] theorem stepCycle_seen (b : Bench σ) : (b.stepCycle c D).seen = D.out (D.next b.state b.driven) b.driven := by
  obtain ⟨t, ht⟩ := stepCycle_eq c D b
  rw [ht]
  rfl

@[simp] theorem stepCycle_edges (b : Bench σ) :
    (b.stepCycle c D).edges = b.edges ++ [(b.driven, D.out b.state b.driven)] := by
  obtain ⟨t, ht⟩ := stepCycle_eq c D b
  rw [ht]
  rfl

@[simp] theorem settle_state (b : Bench σ) : (b.settle D).state = b.state := rfl
@[simp] theorem settle_driven (b : Bench σ) : (b.settle D).driven = b.driven := rfl
@[simp] theorem settle_seen (b : Bench σ) : (b.settle D).seen = D.out b.state b.driven := rfl
@[simp] theorem settle_edges (b : Bench σ) : (b.settle D).edges = b.edges := rfl

@[simp] theorem drive_state (b : Bench σ) (f : Driven → Driven) : (b.drive f).state = b.state := rfl
@[simp] theorem drive_driven (b : Bench σ) (f : Driven → Driven) : (b.drive f).driven = f b.driven := rfl
@[simp] theorem drive_seen (b : Bench σ) (f : Driven → Driven) : (b.drive f).seen = b.seen := rfl
@[simp] theorem drive_edges (b : Bench σ) (f : Driven → Driven) : (b.drive f).edges = b.edges := rfl

end Bench

@[simp] theorem Subordinate.out_responses (s : σ) (m : Driven) : (D.out s m).toResponses = D.responses s := rfl

/-! ## A master that keeps to the protocol -/

/-- VALID is high on the waiting channels only. -/
def requesting (m : Driven) (waiting : List Channel) : Driven :=
  { m with
    awvalid := decide (.aw ∈ waiting), wvalid := decide (.w ∈ waiting), arvalid := decide (.ar ∈ waiting) }

@[simp] theorem valid_requesting (m : Driven) (waiting : List Channel) (ch : Channel) :
    ch.valid (requesting m waiting) = decide (ch ∈ waiting) := by
  cases ch <;> rfl

@[simp] theorem payload_requesting (m : Driven) (waiting : List Channel) (ch : Channel) :
    ch.payload (requesting m waiting) = ch.payload m := by
  cases ch <;> rfl

/-- The channels on which nothing is transferred at the next edge. -/
def refused (m : Driven) (waiting : List Channel) (s : σ) : List Channel :=
  waiting.filter fun ch => !ch.ready (D.out s (requesting m waiting))

/-- Each VALID stays until the edge before which its READY is high: the state after the last transfer,
if that takes no more edges than given. -/
def addressed (m : Driven) : Nat → List Channel → σ → Option σ
  | 0, _, _ => none
  | n + 1, waiting, s =>
      if refused D m waiting s = [] then some (D.next s (requesting m waiting))
      else addressed m n (refused D m waiting s) (D.next s (requesting m waiting))

/-- No READY rises at an edge while its VALID waits for it. -/
def Punctual (m : Driven) : Nat → List Channel → σ → Prop
  | 0, _, _ => True
  | n + 1, waiting, s =>
      (∀ ch ∈ refused D m waiting s,
        ch.ready (D.out (D.next s (requesting m waiting)) (requesting m waiting)) = false) ∧
      (refused D m waiting s ≠ [] → Punctual m n (refused D m waiting s) (D.next s (requesting m waiting)))

instance (m : Driven) : (n : Nat) → (waiting : List Channel) → (s : σ) → Decidable (Punctual D m n waiting s)
  | 0, _, _ => inferInstanceAs (Decidable True)
  | n + 1, waiting, s =>
      have := instDecidablePunctual m n (refused D m waiting s) (D.next s (requesting m waiting))
      inferInstanceAs (Decidable (_ ∧ _))

/-- The master is ready for the response: the state in which it comes. -/
def responding (call : Call) (m : Driven) : Nat → σ → Option σ
  | 0, _ => none
  | n + 1, s => if call.responded (D.responses s) then some s else responding call m n (D.next s m)

/-- What the call drives at its start. -/
def Call.started (wstrbWidth : Nat) (call : Call) : Driven := call.start wstrbWidth .idle

/-- The subordinate takes the request of a master that keeps to the protocol, and responds, within the
timeout: the state in which it responds. -/
def reply (wstrbWidth timeout : Nat) (call : Call) (s : σ) : Option σ :=
  (addressed D (call.started wstrbWidth) timeout call.channels s).bind
    (responding D call (call.setReady true (requesting (call.started wstrbWidth) [])) timeout)

/-- One transfer on each channel of the request, VALID high from the start of the call until then, and
one of the response, whose value the call returns. -/
structure Legal (wstrbWidth : Nat) (call : Call) (es : List Edge) (o : Outcome) : Prop where
  request : ∀ ch ∈ call.channels, OneTransfer (fun e : Edge => ch.valid e.1) (fun e => ch.ready e.2)
    (fun e => ch.payload e.1) es (ch.payload (call.started wstrbWidth))
  response : ∃ v, transfers (fun e : Edge => call.responded e.2.toResponses) (fun e => call.ready e.1)
    (fun e => call.result e.2.toResponses) es = [v] ∧ o = .returned v

/-! ## The request -/

theorem foldl_lower (taken : List Channel) : ∀ m : Driven, taken.foldl (fun m ch => ch.lower m) m = { m with
        awvalid := m.awvalid && decide (.aw ∉ taken), wvalid := m.wvalid && decide (.w ∉ taken)
        arvalid := m.arvalid && decide (.ar ∉ taken) } := by
  induction taken with
  | nil => intro m; simp
  | cons ch taken ih =>
    intro m
    rw [List.foldl_cons, ih]
    cases ch <;> simp [Channel.lower]

theorem foldl_drive_lower (taken : List Channel) : ∀ b : Bench σ, taken.foldl (fun b ch => b.drive ch.lower) b =
      { b with driven := taken.foldl (fun m ch => ch.lower m) b.driven } := by
  induction taken with
  | nil => exact fun b => rfl
  | cons ch taken ih => exact fun b => ih (b.drive ch.lower)

/-- Lowering VALID on the channels that are taken leaves the others waiting. -/
theorem lower_requesting (m : Driven) (waiting : List Channel) (taken : Channel → Bool) :
    (waiting.filter taken).foldl (fun m ch => ch.lower m) (requesting m waiting) =
      requesting m (waiting.filter fun ch => !taken ch) := by
  have hone : ∀ ch : Channel, (decide (ch ∈ waiting) && decide (ch ∉ waiting.filter taken)) =
      decide (ch ∈ waiting.filter fun ch => !taken ch) := by
    intro ch
    by_cases hw : ch ∈ waiting <;> cases ht : taken ch <;> simp [hw, ht]
  rw [foldl_lower]
  unfold requesting
  simp only [hone]

/-- A turn of the loop: what is taken, and the bench after it. -/
theorem request_succ (fuel : Nat) (m : Driven) (waiting : List Channel) (b : Bench σ)
    (hb : b.driven = requesting m waiting) :
    let rest := (refused D m waiting b.state).filter fun ch =>
      !ch.ready (D.out (D.next b.state (requesting m waiting)) (requesting m waiting))
    let b' : Bench σ := { (b.settle D).stepCycle c D with driven := requesting m rest }
    b.request c D (fuel + 1) waiting = if rest = [] then (true, b') else b'.request c D fuel rest := by
  intro rest b'
  have htaken : ∀ ch : Channel, (ch.ready (b.settle D).seen || ch.ready ((b.settle D).stepCycle c D).seen) =
        (ch.ready (D.out b.state (requesting m waiting)) ||
          ch.ready (D.out (D.next b.state (requesting m waiting)) (requesting m waiting))) := by
    intro ch
    rw [Bench.settle_seen, Bench.stepCycle_seen, Bench.settle_state, Bench.settle_driven, hb]
  have hrest : (waiting.filter fun ch =>
      !(ch.ready (b.settle D).seen || ch.ready ((b.settle D).stepCycle c D).seen)) = rest := by
    simp only [rest, refused, List.filter_filter]
    congr 1
    funext ch
    rw [htaken, Bool.not_or, Bool.and_comm]
  rw [Bench.request]
  dsimp only
  rw [foldl_drive_lower, Bench.stepCycle_driven, Bench.settle_driven, hb, lower_requesting, hrest]

/-- The edges of a loop that is punctual: each channel waits until its transfer. -/
theorem request_punctual (m : Driven) (fuel : Nat) : ∀ (waiting : List Channel) (b : Bench σ) (s' : σ),
    b.driven = requesting m waiting → Punctual D m fuel waiting b.state →
    addressed D m fuel waiting b.state = some s' →
    ∃ b' es, b.request c D fuel waiting = (true, b') ∧ b'.state = s' ∧ b'.driven = requesting m [] ∧
      b'.seen.toResponses = D.responses s' ∧ b'.edges = b.edges ++ es ∧
      (∀ ch ∈ waiting, OneTransfer (fun e : Edge => ch.valid e.1) (fun e => ch.ready e.2)
        (fun e => ch.payload e.1) es (ch.payload m)) ∧
      ∀ e ∈ es, ∃ ws ⊆ waiting, e.1 = requesting m ws := by
  induction fuel with
  | zero => exact fun waiting b s' _ _ h => nomatch h
  | succ fuel ih =>
    intro waiting b s' hb hpunctual haddressed
    have hrest : ((refused D m waiting b.state).filter fun ch =>
        !ch.ready (D.out (D.next b.state (requesting m waiting)) (requesting m waiting))) =
          refused D m waiting b.state := by
      refine List.filter_eq_self.mpr fun ch hch => ?_
      rw [hpunctual.1 ch hch]
      rfl
    have hedges : ((b.settle D).stepCycle c D).edges =
        b.edges ++ [(requesting m waiting, D.out b.state (requesting m waiting))] := by
      rw [Bench.stepCycle_edges, Bench.settle_edges, Bench.settle_driven, Bench.settle_state, hb]
    have hstate : ((b.settle D).stepCycle c D).state = D.next b.state (requesting m waiting) := by
      rw [Bench.stepCycle_state, Bench.settle_driven, Bench.settle_state, hb]
    rw [request_succ c D fuel m waiting b hb, hrest]
    rw [addressed] at haddressed
    by_cases hnil : refused D m waiting b.state = []
    · rw [if_pos hnil] at haddressed ⊢
      obtain rfl := Option.some.inj haddressed
      refine ⟨_, _, rfl, hstate, by rw [hnil], ?_, hedges, fun ch hch => ?_, fun e he => ?_⟩
      · change ((b.settle D).stepCycle c D).seen.toResponses = _
        rw [Bench.stepCycle_seen, Bench.settle_driven, Bench.settle_state, hb, Subordinate.out_responses]
      · have hready : ch.ready (D.out b.state (requesting m waiting)) = true := by
          by_contra hno
          have hin : ch ∈ refused D m waiting b.state := List.mem_filter.mpr ⟨hch, by simpa using hno⟩
          exact List.not_mem_nil (hnil ▸ hin)
        exact OneTransfer.now (by simpa using hch) hready (payload_requesting m waiting ch)
          fun d hd => absurd hd List.not_mem_nil
      · exact ⟨waiting, List.Subset.refl _, by rw [List.mem_singleton.mp he]⟩
    · rw [if_neg hnil] at haddressed ⊢
      obtain ⟨b', es, hreq, hs', hd', hr', he', hch', hes⟩ := ih (refused D m waiting b.state)
        { (b.settle D).stepCycle c D with driven := requesting m (refused D m waiting b.state) } s' rfl
        (by change Punctual D m fuel _ ((b.settle D).stepCycle c D).state
            rw [hstate]
            exact hpunctual.2 hnil)
        (by change addressed D m fuel _ ((b.settle D).stepCycle c D).state = _
            rw [hstate]
            exact haddressed)
      have hsub : refused D m waiting b.state ⊆ waiting := fun ch hch => List.mem_of_mem_filter hch
      refine ⟨b', (requesting m waiting, D.out b.state (requesting m waiting)) :: es, hreq, hs', hd', hr', ?_,
        fun ch hch => ?_, fun e he => ?_⟩
      · rw [he']
        change ((b.settle D).stepCycle c D).edges ++ es = _
        rw [hedges, List.append_assoc]
        rfl
      · by_cases hready : ch.ready (D.out b.state (requesting m waiting)) = true
        · refine OneTransfer.now (by simpa using hch) hready (payload_requesting m waiting ch) fun d hd => ?_
          obtain ⟨ws, hws, hdw⟩ := hes d hd
          rw [hdw, valid_requesting, decide_eq_false_iff_not]
          intro hin
          have := (List.mem_filter.mp (hws hin)).2
          rw [hready] at this
          exact Bool.false_ne_true this
        · have hno : ch.ready (D.out b.state (requesting m waiting)) = false := Bool.not_eq_true _ ▸ hready
          refine OneTransfer.later (by simpa using hch) hno (payload_requesting m waiting ch) ?_
          exact hch' ch (List.mem_filter.mpr ⟨hch, by rw [hno]; rfl⟩)
      · rcases List.mem_cons.mp he with rfl | he
        · exact ⟨waiting, List.Subset.refl _, rfl⟩
        · obtain ⟨ws, hws, hew⟩ := hes e he
          exact ⟨ws, fun ch hch => hsub (hws hch), hew⟩

/-- In any loop a channel is not offered again once it counts as taken. -/
theorem request_driven (m : Driven) (fuel : Nat) : ∀ (waiting : List Channel) (b : Bench σ),
    b.driven = requesting m waiting →
    ∃ es, (b.request c D fuel waiting).2.edges = b.edges ++ es ∧ (∀ e ∈ es, ∃ ws ⊆ waiting, e.1 = requesting m ws) ∧
      ((b.request c D fuel waiting).1 = true → (b.request c D fuel waiting).2.driven = requesting m []) := by
  induction fuel with
  | zero => exact fun waiting b hb => ⟨[], (List.append_nil _).symm, fun e he => absurd he List.not_mem_nil, (nomatch ·)⟩
  | succ fuel ih =>
    intro waiting b hb
    have hedges : ((b.settle D).stepCycle c D).edges =
        b.edges ++ [(requesting m waiting, D.out b.state (requesting m waiting))] := by
      rw [Bench.stepCycle_edges, Bench.settle_edges, Bench.settle_driven, Bench.settle_state, hb]
    rw [request_succ c D fuel m waiting b hb]
    split
    · next hnil =>
      refine ⟨_, hedges, fun e he => ⟨waiting, List.Subset.refl _, by rw [List.mem_singleton.mp he]⟩, fun _ => ?_⟩
      exact congrArg (requesting m) hnil
    · obtain ⟨es, he, hes, hd⟩ := ih _ { (b.settle D).stepCycle c D with driven := requesting m _ } rfl
      refine ⟨(requesting m waiting, D.out b.state (requesting m waiting)) :: es, ?_, fun e hin => ?_, hd⟩
      · rw [he]
        change ((b.settle D).stepCycle c D).edges ++ es = _
        rw [hedges, List.append_assoc]
        rfl
      · rcases List.mem_cons.mp hin with rfl | hin
        · exact ⟨waiting, List.Subset.refl _, rfl⟩
        · obtain ⟨ws, hws, hew⟩ := hes e hin
          exact ⟨ws, fun ch hch => List.mem_of_mem_filter (List.mem_of_mem_filter (hws hch)), hew⟩

/-- A READY that rises at an edge: its channel is given up without a transfer. -/
theorem request_unpunctual (m : Driven) (fuel : Nat) : ∀ (waiting : List Channel) (b : Bench σ),
    b.driven = requesting m waiting → ¬ Punctual D m fuel waiting b.state →
    ∃ ch ∈ waiting, ∃ es, (b.request c D fuel waiting).2.edges = b.edges ++ es ∧
      ∀ e ∈ es, ¬ (ch.valid e.1 = true ∧ ch.ready e.2 = true) := by
  induction fuel with
  | zero => exact fun waiting b _ h => absurd trivial h
  | succ fuel ih =>
    intro waiting b hb hno
    have hedges : ((b.settle D).stepCycle c D).edges =
        b.edges ++ [(requesting m waiting, D.out b.state (requesting m waiting))] := by
      rw [Bench.stepCycle_edges, Bench.settle_edges, Bench.settle_driven, Bench.settle_state, hb]
    have hstate : ((b.settle D).stepCycle c D).state = D.next b.state (requesting m waiting) := by
      rw [Bench.stepCycle_state, Bench.settle_driven, Bench.settle_state, hb]
    have hrefused : ∀ ch ∈ refused D m waiting b.state, ch.ready (D.out b.state (requesting m waiting)) = false := by
      intro ch hch
      simpa using (List.mem_filter.mp hch).2
    by_cases hlate : ∀ ch ∈ refused D m waiting b.state,
        ch.ready (D.out (D.next b.state (requesting m waiting)) (requesting m waiting)) = false
    · -- nothing rises at this edge, so the loop goes on as the protocol does
      have hrest : ((refused D m waiting b.state).filter fun ch =>
          !ch.ready (D.out (D.next b.state (requesting m waiting)) (requesting m waiting))) =
            refused D m waiting b.state := by
        refine List.filter_eq_self.mpr fun ch hch => ?_
        rw [hlate ch hch]
        rfl
      have hnil : refused D m waiting b.state ≠ [] := fun h => hno ⟨hlate, fun h' => absurd h h'⟩
      obtain ⟨ch, hch, es, he, hes⟩ := ih (refused D m waiting b.state)
        { (b.settle D).stepCycle c D with driven := requesting m (refused D m waiting b.state) } rfl
        (by change ¬ Punctual D m fuel _ ((b.settle D).stepCycle c D).state
            rw [hstate]
            exact fun h => hno ⟨hlate, fun _ => h⟩)
      refine ⟨ch, List.mem_of_mem_filter hch,
        (requesting m waiting, D.out b.state (requesting m waiting)) :: es, ?_, fun e hin => ?_⟩
      · rw [request_succ c D fuel m waiting b hb, hrest, if_neg hnil, he]
        change ((b.settle D).stepCycle c D).edges ++ es = _
        rw [hedges, List.append_assoc]
        rfl
      · rcases List.mem_cons.mp hin with rfl | hin
        · exact fun h => Bool.false_ne_true ((hrefused ch hch).symm.trans h.2)
        · exact hes e hin
    · -- the channel whose READY rises is lowered, and never offered again
      push Not at hlate
      obtain ⟨ch, hch, hrise⟩ := hlate
      have hgone : ∀ ws, ws ⊆ ((refused D m waiting b.state).filter fun ch =>
          !ch.ready (D.out (D.next b.state (requesting m waiting)) (requesting m waiting))) → ch ∉ ws := by
        intro ws hws hin
        exact hrise (by simpa using (List.mem_filter.mp (hws hin)).2)
      have hfirst : ¬ (ch.valid (requesting m waiting) = true ∧
          ch.ready (D.out b.state (requesting m waiting)) = true) :=
        fun h => Bool.false_ne_true ((hrefused ch hch).symm.trans h.2)
      refine ⟨ch, List.mem_of_mem_filter hch, ?_⟩
      rw [request_succ c D fuel m waiting b hb]
      split
      · refine ⟨_, hedges, fun e he => ?_⟩
        rw [List.mem_singleton.mp he]
        exact hfirst
      · obtain ⟨es, he, hes, -⟩ := request_driven c D m fuel _
          { (b.settle D).stepCycle c D with driven := requesting m _ } rfl
        refine ⟨(requesting m waiting, D.out b.state (requesting m waiting)) :: es, ?_, fun e hin => ?_⟩
        · rw [he]
          change ((b.settle D).stepCycle c D).edges ++ es = _
          rw [hedges, List.append_assoc]
          rfl
        · rcases List.mem_cons.mp hin with rfl | hin
          · exact hfirst
          · obtain ⟨ws, hws, hew⟩ := hes e hin
            rw [hew, valid_requesting, decide_eq_true_eq]
            exact fun h => hgone ws hws h.1

/-! ## The response -/

theorem setReady_valid (call : Call) (r : Bool) (m : Driven) (ch : Channel) :
    ch.valid (call.setReady r m) = ch.valid m := by
  cases call <;> cases ch <;> rfl

@[simp] theorem ready_setReady (call : Call) (r : Bool) (m : Driven) : call.ready (call.setReady r m) = r := by
  cases call <;> rfl

/-- The second loop changes nothing but READY until it ends. -/
theorem awaitResponse_driven (call : Call) (fuel : Nat) : ∀ b : Bench σ,
    (b.awaitResponse c D call fuel).2.driven = .idle ∧
      ∃ es, (b.awaitResponse c D call fuel).2.edges = b.edges ++ es ∧ ∀ e ∈ es, e.1 = b.driven := by
  induction fuel with
  | zero => exact fun b => ⟨rfl, [], (List.append_nil _).symm, fun e he => absurd he List.not_mem_nil⟩
  | succ fuel ih =>
    intro b
    rw [Bench.awaitResponse]
    split
    · refine ⟨rfl, [(b.driven, D.out b.state b.driven)], ?_, fun e he => by rw [List.mem_singleton.mp he]⟩
      exact Bench.stepCycle_edges c D b
    · obtain ⟨hidle, es, he, hes⟩ := ih (b.stepCycle c D)
      refine ⟨hidle, (b.driven, D.out b.state b.driven) :: es, ?_, fun e hin => ?_⟩
      · rw [he, Bench.stepCycle_edges, List.append_assoc]
        rfl
      · rcases List.mem_cons.mp hin with rfl | hin
        · rfl
        · rw [hes e hin, Bench.stepCycle_driven]

/-- A response that comes in time is transferred once, at the edge after it is seen. -/
theorem awaitResponse_responding (call : Call) (fuel : Nat) : ∀ (b : Bench σ) (s' : σ),
    call.ready b.driven = true → b.seen.toResponses = D.responses b.state →
    responding D call b.driven fuel b.state = some s' →
    (b.awaitResponse c D call fuel).1 = (if call.resp (D.responses s') ≠ call.expectedResp then
        .mismatch call.expectedResp (call.resp (D.responses s'))
      else .returned (call.result (D.responses s'))) ∧
    ∃ es, (b.awaitResponse c D call fuel).2.edges = b.edges ++ es ∧
      transfers (fun e : Edge => call.responded e.2.toResponses) (fun e => call.ready e.1)
        (fun e => call.result e.2.toResponses) es = [call.result (D.responses s')] := by
  induction fuel with
  | zero => exact fun b s' _ _ h => nomatch h
  | succ fuel ih =>
    intro b s' hready hseen hresp
    rw [responding] at hresp
    rw [Bench.awaitResponse, hseen]
    by_cases hr : call.responded (D.responses b.state) = true
    · rw [if_pos hr] at hresp ⊢
      obtain rfl := Option.some.inj hresp
      refine ⟨rfl, [(b.driven, D.out b.state b.driven)], Bench.stepCycle_edges c D b, ?_⟩
      rw [transfers_single, Subordinate.out_responses, hr, hready]
      rfl
    · rw [if_neg hr] at hresp ⊢
      obtain ⟨ho, es, he, hes⟩ := ih (b.stepCycle c D) s' (by rw [Bench.stepCycle_driven]; exact hready)
        (by rw [Bench.stepCycle_seen, Bench.stepCycle_state, Subordinate.out_responses])
        (by rw [Bench.stepCycle_driven, Bench.stepCycle_state]; exact hresp)
      refine ⟨ho, (b.driven, D.out b.state b.driven) :: es, ?_, ?_⟩
      · rw [he, Bench.stepCycle_edges, List.append_assoc]
        rfl
      · have hno : call.responded (D.responses b.state) = false := Bool.not_eq_true _ ▸ hr
        rw [← List.singleton_append, transfers_append, hes, transfers_single, Subordinate.out_responses, hno]
        rfl

/-! ## A call -/

theorem started_eq (wstrbWidth : Nat) (call : Call) {b : Bench σ} (hidle : b.driven = .idle) :
    (b.drive fun m => call.start wstrbWidth m).driven = requesting (call.started wstrbWidth) call.channels := by
  rw [Bench.drive_driven, hidle]
  cases call <;> rfl

/-- The rising edges of a call. -/
def callEdges (wstrbWidth timeout : Nat) (call : Call) (b : Bench σ) : List Edge :=
  (b.perform c D wstrbWidth timeout call).2.edges.drop b.edges.length

theorem drop_edges {es es' : List Edge} {es'' : List Edge} (h : es'' = es ++ es') : es''.drop es.length = es' := by
  rw [h, List.drop_left]

theorem legal_of_punctual {wstrbWidth timeout : Nat} {call : Call} {b : Bench σ} {s' : σ} (hidle : b.driven = .idle)
    (hreply : reply D wstrbWidth timeout call b.state = some s')
    (hp : Punctual D (call.started wstrbWidth) timeout call.channels b.state)
    (he : call.resp (D.responses s') = call.expectedResp) :
    Legal wstrbWidth call (callEdges c D wstrbWidth timeout call b) (b.perform c D wstrbWidth timeout call).1 := by
  obtain ⟨s, hs, hs'⟩ := Option.bind_eq_some_iff.mp hreply
  obtain ⟨b', es, hreq, hstate, hdriven, hseen, hedges, hone, hes⟩ :=
    request_punctual c D (call.started wstrbWidth) timeout call.channels _ s (started_eq wstrbWidth call hidle) hp hs
  have hready : call.ready (b'.drive (call.setReady true)).driven = true := ready_setReady call true _
  obtain ⟨ho, es', hedges', htransfer⟩ := awaitResponse_responding c D call timeout (b'.drive (call.setReady true)) s'
    hready (by rw [Bench.drive_seen, Bench.drive_state, hseen, hstate])
    (by rw [Bench.drive_driven, Bench.drive_state, hdriven, hstate]; exact hs')
  have hdrop : callEdges c D wstrbWidth timeout call b = es ++ es' := by
    refine drop_edges ?_
    unfold Bench.perform
    rw [hreq, if_pos rfl, hedges', Bench.drive_edges, hedges, List.append_assoc]
    rfl
  obtain ⟨-, es'', hedges'', hes''⟩ := awaitResponse_driven c D call timeout (b'.drive (call.setReady true))
  obtain rfl : es' = es'' := List.append_cancel_left (hedges'.symm.trans hedges'')
  -- READY is low until the request is through, and VALID is low afterwards
  have hunready : ∀ e ∈ es, call.ready e.1 = false := by
    intro e hin
    obtain ⟨ws, -, hew⟩ := hes e hin
    rw [hew]
    cases call <;> rfl
  have hquiet : ∀ ch : Channel, ∀ e ∈ es', ch.valid e.1 = false := by
    intro ch e hin
    rw [hes'' e hin, Bench.drive_driven, setReady_valid, hdriven, valid_requesting]
    exact decide_eq_false List.not_mem_nil
  rw [hdrop]
  constructor
  case request => exact fun ch hch => (hone ch hch).append (hquiet ch)
  case response =>
    refine ⟨call.result (D.responses s'), ?_, ?_⟩
    · rw [transfers_append, htransfer, transfers_eq_nil, List.nil_append]
      exact fun e hin h => Bool.false_ne_true ((hunready e hin).symm.trans h.2)
    · unfold Bench.perform
      rw [hreq, if_pos rfl, ho, if_neg (not_not.mpr he)]

theorem punctual_of_legal {wstrbWidth timeout : Nat} {call : Call} {b : Bench σ} (hidle : b.driven = .idle)
    (h : Legal wstrbWidth call (callEdges c D wstrbWidth timeout call b) (b.perform c D wstrbWidth timeout call).1) :
    Punctual D (call.started wstrbWidth) timeout call.channels b.state := by
  by_contra hno
  obtain ⟨ch, hch, es, he, hes⟩ := request_unpunctual c D (call.started wstrbWidth) timeout call.channels _
    (started_eq wstrbWidth call hidle) hno
  obtain ⟨-, -, -, hd⟩ := request_driven c D (call.started wstrbWidth) timeout call.channels _
    (started_eq wstrbWidth call hidle)
  have hnone : ∃ es', callEdges c D wstrbWidth timeout call b = es ++ es' ∧ ∀ e ∈ es', ch.valid e.1 = false := by
    unfold callEdges Bench.perform
    dsimp only
    split
    · next htrue =>
      obtain ⟨-, es', he', hes'⟩ := awaitResponse_driven c D call timeout
        ((Bench.request c D timeout call.channels (b.drive fun m => call.start wstrbWidth m)).2.drive
          (call.setReady true))
      refine ⟨es', drop_edges ?_, fun e hin => ?_⟩
      · rw [he', Bench.drive_edges, he, List.append_assoc]
        rfl
      · rw [hes' e hin, Bench.drive_driven, setReady_valid, hd htrue, valid_requesting]
        exact decide_eq_false List.not_mem_nil
    · exact ⟨[], drop_edges (by rw [Bench.drive_edges, he, List.append_nil]; rfl),
        fun e hin => absurd hin List.not_mem_nil⟩
  obtain ⟨es', hdrop, hes'⟩ := hnone
  obtain ⟨before, e, after, heq, -, ⟨hv, hr, -⟩, -⟩ := h.request ch hch
  have hin : e ∈ es ++ es' := by
    rw [← hdrop, heq]
    exact List.mem_append_right _ List.mem_cons_self
  rcases List.mem_append.mp hin with hin | hin
  · exact hes e hin ⟨hv, hr⟩
  · exact Bool.false_ne_true ((hes' e hin).symm.trans hv)

/-- Of a subordinate that takes the request and responds within the timeout, a call is legal exactly
when no READY rises at an edge while its VALID waits for it and the response is the expected one. -/
theorem perform_legal_iff (wstrbWidth timeout : Nat) (call : Call) (b : Bench σ) (hidle : b.driven = .idle) (s' : σ)
    (hreply : reply D wstrbWidth timeout call b.state = some s') :
    Legal wstrbWidth call (callEdges c D wstrbWidth timeout call b) (b.perform c D wstrbWidth timeout call).1 ↔
      Punctual D (call.started wstrbWidth) timeout call.channels b.state ∧
        call.resp (D.responses s') = call.expectedResp := by
  constructor
  · intro h
    have hp := punctual_of_legal c D hidle h
    refine ⟨hp, ?_⟩
    by_contra hne
    obtain ⟨s, hs, hs'⟩ := Option.bind_eq_some_iff.mp hreply
    obtain ⟨b', es, hreq, hstate, hdriven, hseen, -, -, -⟩ :=
      request_punctual c D (call.started wstrbWidth) timeout call.channels _ s (started_eq wstrbWidth call hidle) hp hs
    obtain ⟨ho, -⟩ := awaitResponse_responding c D call timeout (b'.drive (call.setReady true)) s'
      (ready_setReady call true _) (by rw [Bench.drive_seen, Bench.drive_state, hseen, hstate])
      (by rw [Bench.drive_driven, Bench.drive_state, hdriven, hstate]; exact hs')
    obtain ⟨v, -, hv⟩ := h.response
    unfold Bench.perform at hv
    rw [hreq, if_pos rfl, ho, if_pos hne] at hv
    exact nomatch hv
  · exact fun h => legal_of_punctual c D hidle hreply h.1 h.2

/-! ## A registered READY -/

/-- A clock that toggles with each step. -/
def toggling : Clock where
  level := fun n => n % 2 == 1
  rises := by
    intro n
    refine ⟨n + n % 2, by omega, ?_, ?_⟩ <;> simp only [beq_eq_false_iff_ne, beq_iff_eq, ne_eq] <;> omega

/-- A read, from the address to the data. -/
inductive ReadPhase where
  | address
  | accept
  | data

/-- ARREADY comes in the cycle after ARVALID, and the data, 7, after the transfer. -/
def registered : Subordinate ReadPhase where
  awready := fun _ _ => false
  wready := fun _ _ => false
  arready := fun s _ => s matches .accept
  responses := fun s => ⟨false, 0, s matches .data, 7, 0⟩
  next := fun s m =>
    match s with
    | .address => if m.arvalid then .accept else .address
    | .accept => if m.arvalid then .data else .address
    | .data => if m.rready then .address else .data

/-- The same with ARREADY always high. -/
def prompt : Subordinate ReadPhase :=
  { registered with
    arready := fun _ _ => true
    next := fun s m =>
      match s with
      | .data => if m.rready then .address else .data
      | _ => if m.arvalid then .data else .address }

/-- Before the first step. -/
def unstarted {σ : Type} (s : σ) : Bench σ where
  time := 0
  state := s
  driven := .idle
  seen := ⟨⟨false, 0, false, 0, 0⟩, false, false, false⟩
  edges := []

/-- ARVALID is withdrawn in the cycle in which ARREADY is first high. -/
theorem registered_illegal :
    ¬ ∀ (c : Clock) (D : Subordinate ReadPhase) (wstrbWidth timeout : Nat) (call : Call) (b : Bench ReadPhase)
        (s' : ReadPhase), b.driven = .idle → reply D wstrbWidth timeout call b.state = some s' →
        call.resp (D.responses s') = call.expectedResp →
        Legal wstrbWidth call (callEdges c D wstrbWidth timeout call b) (b.perform c D wstrbWidth timeout call).1 := by
  intro h
  have hlegal := h toggling registered 4 50 (.read 0 0 0) (unstarted .address) .data rfl rfl rfl
  have hlate : ¬ Punctual registered (Call.started 4 (.read 0 0 0)) 50 [.ar] ReadPhase.address := by decide
  exact hlate (punctual_of_legal toggling registered rfl hlegal)

theorem perform_legal_iff_prompt :
    Legal 4 (.read 0 0 0) (callEdges toggling prompt 4 50 (.read 0 0 0) (unstarted .address))
      ((unstarted ReadPhase.address).perform toggling prompt 4 50 (.read 0 0 0)).1 :=
  (perform_legal_iff toggling prompt 4 50 (.read 0 0 0) (unstarted .address) rfl .data rfl).mpr ⟨by decide, rfl⟩

end Veriforge.AxiLite

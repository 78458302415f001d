import Mathlib.Data.List.Basic
import Mathlib.Tactic.ByContra

/-! # Valid/ready handshakes

A channel is observed once a cycle: whether its sender says `valid`, whether its receiver says `ready`,
and what the sender puts on it. A transfer happens in the cycles in which both do. -/

namespace Veriforge.Handshake

variable {ε α : Type}

/-- What is transferred, in order. -/
def transfers (valid ready : ε → Bool) (payload : ε → α) (es : List ε) : List α :=
  (es.filter fun e => valid e && ready e).map payload

variable {valid ready : ε → Bool} {payload : ε → α}

@[simp] theorem transfers_nil : transfers valid ready payload [] = [] := rfl

@[simp] theorem transfers_append (es es' : List ε) : transfers valid ready payload (es ++ es') =
    transfers valid ready payload es ++ transfers valid ready payload es' := by
  simp [transfers]

theorem transfers_single (e : ε) :
    transfers valid ready payload [e] = if valid e && ready e then [payload e] else [] := by
  unfold transfers
  cases h : valid e && ready e <;> simp [h]

theorem transfers_eq_nil {es : List ε} (h : ∀ e ∈ es, ¬ (valid e = true ∧ ready e = true)) :
    transfers valid ready payload es = [] := by
  unfold transfers
  rw [List.filter_eq_nil_iff.mpr fun e he => ?_, List.map_nil]
  simpa using h e he

/-- The sender offers `x`, keeps offering it until a cycle in which the receiver is ready, and offers
nothing afterwards. -/
def OneTransfer (valid ready : ε → Bool) (payload : ε → α) (es : List ε) (x : α) : Prop :=
  ∃ before e after, es = before ++ e :: after ∧ (∀ d ∈ before, valid d = true ∧ ready d = false ∧ payload d = x) ∧
    (valid e = true ∧ ready e = true ∧ payload e = x) ∧ ∀ d ∈ after, valid d = false

namespace OneTransfer

/-- A cycle in which the receiver is ready ends it. -/
theorem now {e : ε} {after : List ε} {x : α} (hv : valid e = true) (hr : ready e = true) (hp : payload e = x)
    (hafter : ∀ d ∈ after, valid d = false) : OneTransfer valid ready payload (e :: after) x :=
  ⟨[], e, after, rfl, fun _ h => absurd h List.not_mem_nil, ⟨hv, hr, hp⟩, hafter⟩

/-- A cycle in which the receiver is not ready comes before. -/
theorem later {e : ε} {es : List ε} {x : α} (hv : valid e = true) (hr : ready e = false) (hp : payload e = x)
    (h : OneTransfer valid ready payload es x) : OneTransfer valid ready payload (e :: es) x := by
  obtain ⟨before, d, after, rfl, hbefore, hd, hafter⟩ := h
  refine ⟨e :: before, d, after, rfl, fun c hc => ?_, hd, hafter⟩
  rcases List.mem_cons.mp hc with rfl | hc
  · exact ⟨hv, hr, hp⟩
  · exact hbefore c hc

/-- Cycles in which nothing is offered may follow. -/
theorem append {es es' : List ε} {x : α} (h : OneTransfer valid ready payload es x)
    (hes : ∀ d ∈ es', valid d = false) : OneTransfer valid ready payload (es ++ es') x := by
  obtain ⟨before, e, after, rfl, hbefore, he, hafter⟩ := h
  refine ⟨before, e, after ++ es', by rw [List.append_assoc, List.cons_append], hbefore, he, fun d hd => ?_⟩
  exact (List.mem_append.mp hd).elim (hafter d) (hes d)

end OneTransfer

variable {ω : Type}

/-- A receiver that takes an offer before the edge at which it is transferred. Its log is even with the
transfers, and what it has seen has been transferred already unless there was a gap; or it is one ahead,
with the offer that it saw last. -/
def Accepting (fire : ω → Bool) (payload : ω → Option α) (seen gap : Bool) (last : Option ω)
    (log sent : List α) : Prop :=
  (log = sent ∧ (seen = true → gap = false) ∧ ∀ l, last = some l → fire l = false) ∨
    ∃ l x, last = some l ∧ fire l = true ∧ seen = true ∧ payload l = some x ∧ log = sent ++ [x]

/-- What the last observation saw on offer at a ready receiver: it is transferred at the next edge. -/
def due (fire : ω → Bool) (payload : ω → Option α) (last : Option ω) : List α :=
  ((last.filter fire).bind payload).toList

namespace Accepting

variable {fire fire' : ω → Bool} {payload : ω → Option α} {seen gap : Bool} {last : Option ω}
  {log sent : List α}

/-- An observation of the offer. -/
theorem low (h : Accepting fire payload seen gap last log sent) {o : ω}
    (hkeeps : ∀ l, last = some l → fire l = true → fire o = true ∧ payload o = payload l)
    (hgap : fire o = true → gap = true) (hknown : fire o = true → seen = false → (payload o).isSome = true)
    {performed : Option α}
    (hp : performed = if fire o && !seen then payload o else none) :
    Accepting fire payload (fire o && (seen || performed.isSome)) (gap || !fire o) (some o)
      (log ++ performed.toList) sent := by
  subst hp
  rcases h with ⟨rfl, hseen, -⟩ | ⟨l, x, rfl, hl, rfl, hx, rfl⟩
  · by_cases hf : fire o = true
    · have hno : seen = false := by
        by_contra hs
        have hgap := hgap hf
        rw [hseen (Bool.not_eq_false _ ▸ hs)] at hgap
        exact Bool.false_ne_true hgap
      obtain ⟨x, hx⟩ := Option.isSome_iff_exists.mp (hknown hf hno)
      refine Or.inr ⟨o, x, rfl, hf, ?_, hx, ?_⟩ <;> simp [hf, hno, hx]
    · refine Or.inl ⟨?_, fun hs => ?_, fun l hl => ?_⟩
      · simp [hf]
      · simp [hf] at hs
      · exact Option.some.inj hl ▸ Bool.not_eq_true _ ▸ hf
  · obtain ⟨hf, ho⟩ := hkeeps l rfl hl
    refine Or.inr ⟨o, x, rfl, hf, ?_, ho.trans hx, ?_⟩ <;> simp [hf]

/-- The edge after the observation of `l`. -/
theorem rise {l : ω} (h : Accepting fire payload seen gap (some l) log sent) {transfer : Bool} {x : α}
    (hseen : transfer = true → fire l = true)
    (hkeeps : fire l = true → transfer = true ∧ payload l = some x) :
    Accepting fire' payload seen (gap && !transfer) none log (if transfer then sent ++ [x] else sent) := by
  rcases h with ⟨rfl, hgap, hl⟩ | ⟨l', y, hl', hfire, rfl, hy, rfl⟩
  · have hno : transfer = false := by
      by_contra ht
      rw [hl l rfl] at hseen
      exact Bool.false_ne_true (hseen (Bool.not_eq_false _ ▸ ht))
    rw [hno]
    refine Or.inl ⟨rfl, fun hs => ?_, fun l hl => nomatch hl⟩
    rw [hgap hs]
    rfl
  · obtain rfl := Option.some.inj hl'
    obtain ⟨ht, hx⟩ := hkeeps hfire
    rw [ht, Bool.not_true, Bool.and_false, if_pos rfl]
    rw [hy] at hx
    exact Or.inl ⟨by rw [Option.some.inj hx], fun _ => rfl, fun l hl => nomatch hl⟩

/-- Between the edge and the next observation what was seen may be forgotten. -/
theorem forget (h : Accepting fire payload seen gap none log sent) : Accepting fire' payload false true none log sent := by
  rcases h with ⟨rfl, -, -⟩ | ⟨l, x, hl, -⟩
  · exact Or.inl ⟨rfl, fun hs => absurd hs Bool.false_ne_true, fun l hl => absurd hl.symm (Option.some_ne_none l)⟩
  · cases hl

/-- An edge leaves no gap. -/
theorem close (h : Accepting fire payload seen gap last log sent) : Accepting fire payload seen false last log sent := by
  rcases h with ⟨hlog, -, hl⟩ | h
  · exact Or.inl ⟨hlog, fun _ => rfl, hl⟩
  · exact Or.inr h

/-- An offer that the receiver has taken is known. -/
theorem known {l : ω} (h : Accepting fire payload seen gap (some l) log sent) (hl : fire l = true) :
    (payload l).isSome = true := by
  rcases h with ⟨-, -, hno⟩ | ⟨l', x, hl', -, -, hx, -⟩
  · exact absurd ((hno l rfl).symm.trans hl) Bool.false_ne_true
  · rw [Option.some.inj hl', hx]
    rfl

/-- The log has the transfers, and what is due. -/
theorem log_eq (h : Accepting fire payload seen gap last log sent) : log = sent ++ due fire payload last := by
  unfold due
  rcases h with ⟨rfl, -, hno⟩ | ⟨l, x, rfl, hl, -, hx, rfl⟩
  · cases last with
    | none => simp
    | some l => simp [Option.filter, hno l rfl]
  · simp [Option.filter, hl, hx]

/-- The log is even with the transfers right after an edge. -/
theorem even (h : Accepting fire payload seen gap none log sent) : log = sent := by
  rcases h with ⟨heq, -⟩ | ⟨l, x, hl, -⟩
  · exact heq
  · exact nomatch hl

end Accepting

end Veriforge.Handshake

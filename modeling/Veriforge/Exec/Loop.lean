import Mathlib.Logic.Relation
import Veriforge.Exec.Basic

/-! # Bounded loops

The loop that tests, runs a round and gives up after a number of rounds. The main results compare a loop
with the same loop under one more exit test, made before the test proper: they are one loop exactly as
long as the exit test answers yes at no test that would have gone on. -/

namespace Veriforge.Exec

variable {ε σ γ : Type}

/-- `while again: round`, raising when `rounds` rounds have been run. -/
def loop (again : Exec ε σ Bool) (round : Exec ε σ Unit) (exceeded : ε) : Nat → Exec ε σ Unit
  | 0 => raise exceeded
  | rounds + 1 => do
      if ← again then
        round
        loop again round exceeded rounds

/-- A round, run a number of times. -/
def times (round : Exec ε σ Unit) : Nat → Exec ε σ Unit
  | 0 => pure ()
  | n + 1 => do
      round
      times round n

section

-- derived here once, not by every proof
attribute [local simp] loop times

end

/-- The same test behind an exit test. -/
def breakIf (stop : σ → Bool) (again : Exec ε σ Bool) : Exec ε σ Bool := do
  if ← read stop then pure false
  else again

/-- One round of a loop, from test to test. -/
def Round (again : Exec ε σ Bool) (round : Exec ε σ Unit) (s t : σ) : Prop :=
  ∃ u, again s = (.ok true, u) ∧ round u = (.ok (), t)

/-- `t` is a state at which a loop started in `s` makes its test. -/
def Tests (again : Exec ε σ Bool) (round : Exec ε σ Unit) : σ → σ → Prop :=
  Relation.ReflTransGen (Round again round)

section

variable {again : Exec ε σ Bool} {round : Exec ε σ Unit} {exceeded exceeded' : ε} {stop : σ → Bool}
  {rounds : Nat} {s t u : σ}

theorem loop_done (h : again s = (.ok false, t)) : loop again round exceeded (rounds + 1) s = (.ok (), t) := by
  rw [loop, bind_of_ok h]
  rfl

theorem loop_round (h : Round again round s t) :
    loop again round exceeded (rounds + 1) s = loop again round exceeded rounds t := by
  obtain ⟨u, ha, hr⟩ := h
  rw [loop, bind_of_ok ha, if_pos rfl, bind_of_ok hr]

/-- A loop that ends made its test, and either it was the last or a round followed. -/
theorem loop_cases (h : loop again round exceeded rounds s = (.ok (), t)) :
    ∃ n, rounds = n + 1 ∧ (again s = (.ok false, t) ∨
      ∃ u, Round again round s u ∧ loop again round exceeded n u = (.ok (), t)) := by
  cases rounds with
  | zero => cases h
  | succ n =>
    refine ⟨n, rfl, ?_⟩
    rw [loop] at h
    obtain ⟨b, v, ha, h⟩ := parts_of_ok h
    cases b with
    | false =>
      cases h
      exact .inl ha
    | true =>
      rw [if_pos rfl] at h
      obtain ⟨⟨⟩, u, hr, hl⟩ := parts_of_ok h
      exact .inr ⟨u, ⟨v, ha, hr⟩, hl⟩

theorem Round.right_unique : Relator.RightUnique (Round again round) := by
  rintro s t t' ⟨u, ha, hr⟩ ⟨u', ha', hr'⟩
  cases ha.symm.trans ha'
  cases hr.symm.trans hr'
  rfl

/-- A loop that ends also ends, in the same state, when it is entered at one of its tests. -/
theorem loop_of_tests (h : loop again round exceeded rounds s = (.ok (), t)) (hu : Tests again round s u) :
    ∃ n, loop again round exceeded n u = (.ok (), t) := by
  induction hu with
  | refl => exact ⟨rounds, h⟩
  | tail _ hround ih =>
    obtain ⟨n, hn⟩ := ih
    obtain ⟨m, rfl, hdone | ⟨v, hv, hl⟩⟩ := loop_cases hn
    · obtain ⟨w, hw, -⟩ := hround
      cases hw.symm.trans hdone
    · cases Round.right_unique hround hv
      exact ⟨m, hl⟩

theorem breakIf_of_stop (h : stop s = true) : breakIf stop again s = (.ok false, s) := by
  show (if stop s then pure false else again : Exec ε σ Bool) s = _
  rw [if_pos h]
  rfl

theorem breakIf_of_not_stop (h : stop s = false) : breakIf stop again s = again s := by
  show (if stop s then pure false else again : Exec ε σ Bool) s = _
  rw [if_neg (by rw [h]; exact Bool.false_ne_true)]

/-- A round behind the exit test is a round at a state it lets pass. -/
theorem round_breakIf : Round (breakIf stop again) round s t ↔ stop s = false ∧ Round again round s t := by
  constructor
  · rintro ⟨u, ha, hr⟩
    cases hs : stop s with
    | true =>
      rw [breakIf_of_stop hs] at ha
      cases ha
    | false =>
      rw [breakIf_of_not_stop hs] at ha
      exact ⟨rfl, u, ha, hr⟩
  · rintro ⟨hs, u, ha, hr⟩
    exact ⟨u, by rw [breakIf_of_not_stop hs, ha], hr⟩

theorem Tests.of_breakIf (h : Tests (breakIf stop again) round s t) : Tests again round s t :=
  h.lift id fun _ _ hr => (round_breakIf.mp hr).2

/-- The exit test lets pass every test that says go on, up to one that says the loop is done. -/
theorem Tests.stop_eq_false (h : Tests (breakIf stop again) round s u) (hu : (again u).1 = .ok false)
    (hv : Tests again round s t) (hgo : (again t).1 = .ok true) : stop t = false := by
  induction h using Relation.ReflTransGen.head_induction_on with
  | refl =>
    rcases hv.cases_head with rfl | ⟨x, ⟨y, hy, -⟩, -⟩
    · rw [hu] at hgo
      cases hgo
    · rw [hy] at hu
      cases hu
  | head hround _ ih =>
    obtain ⟨hs, hround⟩ := round_breakIf.mp hround
    rcases hv.cases_head with rfl | ⟨x, hx, hxt⟩
    · exact hs
    · cases Round.right_unique hx hround
      exact ih hxt

/-- A loop that ends still ends behind an exit test: at the same last test, when the exit test lets
every test pass, and otherwise where the exit test first says stop. -/
theorem loop_breakIf (h : loop again round exceeded rounds s = (.ok (), t)) :
    ∃ u, loop (breakIf stop again) round exceeded' rounds s = (.ok (), u) ∧
      (u = t ∧ (∀ v, Tests again round s v → stop v = false) ∨
        Tests (breakIf stop again) round s u ∧ stop u = true) := by
  induction rounds generalizing s with
  | zero => cases h
  | succ n ih =>
    cases hs : stop s with
    | true => exact ⟨s, loop_done (breakIf_of_stop hs), .inr ⟨.refl, hs⟩⟩
    | false =>
      obtain ⟨m, hm, hdone | ⟨v, hv, hl⟩⟩ := loop_cases h
      · refine ⟨t, loop_done ((breakIf_of_not_stop hs).trans hdone), .inl ⟨rfl, fun w hw => ?_⟩⟩
        -- no round follows the last test
        rcases hw.cases_head with rfl | ⟨x, ⟨y, hy, -⟩, -⟩
        · exact hs
        · cases hy.symm.trans hdone
      · cases hm
        have hround : Round (breakIf stop again) round s v := round_breakIf.mpr ⟨hs, hv⟩
        obtain ⟨u, hu, ⟨rfl, hpass⟩ | ⟨htests, hstop⟩⟩ := ih hl
        · refine ⟨u, (loop_round hround).trans hu, .inl ⟨rfl, fun w hw => ?_⟩⟩
          rcases hw.cases_head with rfl | ⟨x, hx, hxw⟩
          · exact hs
          · cases Round.right_unique hx hv
            exact hpass w hxw
        · exact ⟨u, (loop_round hround).trans hu, .inr ⟨.head hround htests, hstop⟩⟩

/-- A test that only looks at the view of a state it is given, and leaves the state as it is. -/
structure Pure (again : Exec ε σ Bool) (view : σ → γ) : Prop where
  unchanged : ∀ s, (again s).2 = s
  view : ∀ s t, view s = view t → (again s).1 = (again t).1

/-- A loop with a pure test ends where the test says so. -/
theorem again_of_loop {view : σ → γ} (hpure : Pure again view)
    (h : loop again round exceeded rounds s = (.ok (), t)) : (again t).1 = .ok false := by
  induction rounds generalizing s with
  | zero => cases h
  | succ n ih =>
    obtain ⟨m, hm, hdone | ⟨v, -, hl⟩⟩ := loop_cases h
    · have hst : s = t := by rw [← hpure.unchanged s, hdone]
      rw [← hst, hdone]
    · cases hm
      exact ih hl

/-- Where the test is pure and the loop ends, the loop behind an exit test ends with the same view of
the state exactly when no test that says go on is one at which the exit test says stop; it then ends in
the same state. -/
theorem loop_breakIf_iff {view : σ → γ} (hpure : Pure again view)
    (h : loop again round exceeded rounds s = (.ok (), t))
    (h' : loop (breakIf stop again) round exceeded' rounds s = (.ok (), u)) :
    (view u = view t ↔ ∀ v, Tests again round s v → (again v).1 = .ok true → stop v = false) ∧
      ((∀ v, Tests again round s v → (again v).1 = .ok true → stop v = false) → u = t) := by
  obtain ⟨u', hu', hcase⟩ := loop_breakIf h
  cases h'.symm.trans hu'
  have hend : (again t).1 = .ok false := again_of_loop hpure h
  have hsame : (∀ v, Tests again round s v → (again v).1 = .ok true → stop v = false) → u = t := by
    intro hgo
    obtain ⟨rfl, -⟩ | ⟨htests, hstop⟩ := hcase
    · rfl
    · obtain ⟨m, hm⟩ := loop_of_tests h htests.of_breakIf
      obtain ⟨k, -, hdone | ⟨w, ⟨x, hx, -⟩, -⟩⟩ := loop_cases hm
      · rw [← hpure.unchanged u, hdone]
      · rw [hgo u htests.of_breakIf (by rw [hx])] at hstop
        cases hstop
  refine ⟨⟨fun hview v hv hgo => ?_, fun hgo => congrArg view (hsame hgo)⟩, hsame⟩
  obtain ⟨-, hpass⟩ | ⟨htests, -⟩ := hcase
  · exact hpass v hv
  · have hu : (again u).1 = .ok false := (hpure.view u t hview).trans hend
    exact htests.stop_eq_false hu hv hgo

end

end Veriforge.Exec

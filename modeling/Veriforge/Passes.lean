import Mathlib.Data.List.Nodup
import Mathlib.Logic.Function.Basic

/-! # Equations solved by repeated passes

Each item of a list defines a name by an expression over names. A pass evaluates the items that are left and publishes
every value at once; an item whose evaluation fails is left for the next pass, and passes are repeated until one brings
nothing. Where knowing more changes no value, the order of the items does not matter. -/

namespace Veriforge

/-- A value that is there stays. -/
def Stays {V : Type} (a b : Option V) : Prop := ∀ v, a = some v → b = some v

theorem Stays.refl {V : Type} (a : Option V) : Stays a a := fun _ h => h

theorem Stays.bind {V W : Type} {a b : Option V} {f g : V → Option W} (h : Stays a b) (hfg : ∀ v, Stays (f v) (g v)) :
    Stays (a.bind f) (b.bind g) := by
  intro w hw
  obtain ⟨v, ha, hf⟩ := Option.bind_eq_some_iff.mp hw
  rw [h v ha]
  exact hfg v w hf

/-- What an item defines, and its value. -/
structure Passes (Item Name V : Type) where
  name : Item → Name
  eval : Item → (Name → Option V) → Option V

namespace Passes

variable {Item Name V : Type}

section

variable [DecidableEq Name] (P : Passes Item Name V)

/-- One pass: what is known after it, and the items that are left. -/
def pass : List Item → (Name → Option V) → (Name → Option V) × List Item
  | [], env => (env, [])
  | item :: items, env =>
      match P.eval item env with
      | some v => pass items (Function.update env (P.name item) (some v))
      | none =>
          let r := pass items env
          (r.1, item :: r.2)

/-- Passes, until one leaves every item it began with. -/
def solve (items : List Item) (env : Name → Option V) : Name → Option V :=
  let r := P.pass items env
  if r.2.length < items.length then solve r.2 r.1 else r.1
termination_by items.length

end

/-- Items and what is known before them. What may be known are the names in `dom`, and no value changes as more of them
are. -/
structure Equations (P : Passes Item Name V) where
  dom : Name → Prop
  items : List Item
  start : Name → Option V
  nodup : (items.map P.name).Nodup
  known : ∀ n, start n ≠ none → dom n
  named : ∀ item ∈ items, dom (P.name item) ∧ start (P.name item) = none
  monotone : ∀ item ∈ items, ∀ e e', (∀ n, Stays (e n) (e' n)) → (∀ n, e' n ≠ none → dom n) →
    Stays (P.eval item e) (P.eval item e')

namespace Equations

variable {P : Passes Item Name V} (E : Equations P) {env : Name → Option V}

/-- All that is known before is, and every item's value under its name. -/
structure Closed (env : Name → Option V) : Prop where
  within : ∀ n, env n ≠ none → E.dom n
  above : ∀ n, Stays (E.start n) (env n)
  closed : ∀ item ∈ E.items, Stays (P.eval item env) (env (P.name item))

/-- The items that are left have no value yet, the others have their own, which any solution has too. -/
structure Solving (left : List Item) (env : Name → Option V) : Prop where
  within : ∀ n, env n ≠ none → E.dom n
  above : ∀ n, Stays (E.start n) (env n)
  least : ∀ e, E.Closed e → ∀ n, Stays (env n) (e n)
  nodup : (left.map P.name).Nodup
  unknown : ∀ item ∈ left, item ∈ E.items ∧ env (P.name item) = none
  solved : ∀ item ∈ E.items, item ∈ left ∨ env (P.name item) ≠ none ∧ P.eval item env = env (P.name item)

variable {E} [DecidableEq Name]

/-- An item that has a value is solved by publishing it. -/
theorem Solving.publish {before after : List Item} {item : Item} {v : V} (h : E.Solving (before ++ item :: after) env)
    (hv : P.eval item env = some v) :
    E.Solving (before ++ after) (Function.update env (P.name item) (some v)) := by
  obtain ⟨hitem, hnone⟩ := h.unknown item (by simp)
  have hstays : ∀ n, Stays (env n) (Function.update env (P.name item) (some v) n) := fun n w hw => by
    rw [Function.update_of_ne, hw]
    rintro rfl
    simp [hnone] at hw
  have hwithin : ∀ n, Function.update env (P.name item) (some v) n ≠ none → E.dom n := fun n hn => by
    by_cases heq : n = P.name item
    · exact heq ▸ (E.named item hitem).1
    · exact h.within n (by rwa [Function.update_of_ne heq] at hn)
  have hnodup := h.nodup
  simp only [List.map_append, List.map_cons, List.nodup_middle, List.nodup_cons] at hnodup
  rw [← List.map_append] at hnodup
  refine ⟨hwithin, fun n w hw => hstays n w (h.above n w hw), fun e he n w hw => ?_, hnodup.2, fun other ho => ?_,
    fun other ho => ?_⟩
  · by_cases heq : n = P.name item
    · subst heq
      rw [Function.update_self] at hw
      exact he.closed item hitem w (hw ▸ E.monotone item hitem env e (h.least e he) he.within v hv)
    · exact h.least e he n w (by rwa [Function.update_of_ne heq] at hw)
  · obtain ⟨hall, hunknown⟩ := h.unknown other (by grind)
    refine ⟨hall, ?_⟩
    rw [Function.update_of_ne, hunknown]
    exact fun heq => hnodup.1 (heq ▸ List.mem_map_of_mem ho)
  · have hstable : ∀ w, P.eval other env = some w → P.eval other (Function.update env (P.name item) (some v)) = some w :=
      E.monotone other ho _ _ hstays hwithin
    rcases h.solved other ho with hleft | ⟨hsome, heval⟩
    · by_cases heq : other = item
      · subst heq
        exact .inr ⟨by simp, by rw [Function.update_self, hstable v hv]⟩
      · exact .inl (by grind)
    · obtain ⟨w, hw⟩ := Option.ne_none_iff_exists'.mp hsome
      exact .inr ⟨by simp [hstays _ w hw], by rw [hstays _ w hw, hstable w (heval.trans hw)]⟩

theorem Solving.pass (before : List Item) {left : List Item} (h : E.Solving (before ++ left) env) :
    E.Solving (before ++ (P.pass left env).2) (P.pass left env).1 := by
  induction left generalizing before env with
  | nil => exact h
  | cons item left ih =>
    rw [Passes.pass]
    split
    · next v hv => exact ih _ (h.publish hv)
    · have hrest := ih (before ++ [item]) (by simpa using h)
      simpa using hrest

/-- A pass leaves fewer items, or it has found no value. -/
theorem pass_cases (left : List Item) (env : Name → Option V) :
    (P.pass left env).2.length < left.length ∨
      P.pass left env = (env, left) ∧ ∀ item ∈ left, P.eval item env = none := by
  induction left generalizing env with
  | nil => exact .inr ⟨rfl, by simp⟩
  | cons item left ih =>
    rw [Passes.pass]
    split
    · rcases ih (Function.update env (P.name item) (some _)) with hlt | ⟨heq, -⟩
      · exact .inl (Nat.lt_succ_of_lt hlt)
      · exact .inl (by rw [heq]; exact Nat.lt_succ_self _)
    · next hv =>
      rcases ih env with hlt | ⟨heq, hnone⟩
      · exact .inl (Nat.succ_lt_succ hlt)
      · exact .inr ⟨by rw [heq], List.forall_mem_cons.mpr ⟨hv, hnone⟩⟩

/-- In the end every item that is left fails. -/
theorem Solving.solve {left : List Item} (h : E.Solving left env) :
    ∃ left', E.Solving left' (P.solve left env) ∧ ∀ item ∈ left', P.eval item (P.solve left env) = none := by
  fun_induction P.solve left env with
  | case1 left env r hlt ih => exact ih (h.pass [])
  | case2 left env r hstuck =>
    obtain ⟨hpass, hnone⟩ := (pass_cases left env).resolve_left hstuck
    rw [show r.1 = env from congrArg Prod.fst hpass]
    exact ⟨left, h, hnone⟩

/-- What is known in the end is the least solution: every item has the value that it has there, or none. -/
theorem solve_spec (E : Equations P) :
    (∀ item ∈ E.items, P.solve E.items E.start (P.name item) = P.eval item (P.solve E.items E.start)) ∧
      E.Closed (P.solve E.items E.start) ∧ ∀ e, E.Closed e → ∀ n, Stays (P.solve E.items E.start n) (e n) := by
  have hstart : E.Solving E.items E.start := ⟨E.known, fun n => .refl _, fun e he => he.above, E.nodup,
    fun item h => ⟨h, (E.named item h).2⟩, fun item h => .inl h⟩
  obtain ⟨left, h, hleft⟩ := hstart.solve
  have heq : ∀ item ∈ E.items, P.solve E.items E.start (P.name item) = P.eval item (P.solve E.items E.start) := by
    intro item hitem
    rcases h.solved item hitem with hl | ⟨-, heval⟩
    · rw [(h.unknown item hl).2, hleft item hl]
    · exact heval.symm
  exact ⟨heq, ⟨h.within, h.above, fun item hitem => heq item hitem ▸ .refl _⟩, h.least⟩

/-- The order of the items does not matter. -/
theorem solve_perm (E : Equations P) {items : List Item} (hperm : E.items.Perm items) :
    P.solve E.items E.start = P.solve items E.start := by
  have hmem : ∀ {item}, item ∈ items → item ∈ E.items := hperm.mem_iff.mpr
  let E' : Equations P := ⟨E.dom, items, E.start, (hperm.map P.name).nodup_iff.mp E.nodup, E.known,
    fun item h => E.named item (hmem h), fun item h => E.monotone item (hmem h)⟩
  obtain ⟨-, hclosed, hleast⟩ := E.solve_spec
  obtain ⟨-, hclosed', hleast'⟩ := E'.solve_spec
  funext n
  apply Option.ext
  intro v
  constructor
  · exact hleast _ ⟨hclosed'.within, hclosed'.above, fun item h => hclosed'.closed item (hperm.mem_iff.mp h)⟩ n v
  · exact hleast' _ ⟨hclosed.within, hclosed.above, fun item h => hclosed.closed item (hmem h)⟩ n v

end Equations

end Passes

end Veriforge

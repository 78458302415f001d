import Mathlib.Data.List.Basic

/-! # Pipelines of valid/ready stages

A stage sits between a sender and a receiver. It takes what is offered to it exactly in the cycles in which
it accepts, and gives away what it offers exactly in those in which its receiver is ready: what it holds is
a first-in-first-out queue. Stages in a row are a stage again. -/

namespace Veriforge.Pipeline

/-- A stage for items of `β`. What it offers may depend on what it is offered, and whether it accepts on
its receiver, as in a wire. -/
structure Stage (β : Type) where
  State : Type
  init : State
  contents : State → List β
  offer : State → Option β → Option β
  accepts : State → Option β → Bool → Bool
  next : State → Option β → Bool → State
  contents_init : contents init = []
  -- nothing is lost, duplicated or reordered
  conserves : ∀ s i ready,
    contents s ++ (if accepts s i ready then i.toList else []) =
      (if ready then (offer s i).toList else []) ++ contents (next s i ready)

namespace Stage

variable {β : Type}

/-- What its receiver takes in a cycle. -/
def given (S : Stage β) (s : S.State) (i : Option β) (ready : Bool) : List β :=
  if ready then (S.offer s i).toList else []

/-- What it takes in a cycle. -/
def taken (S : Stage β) (s : S.State) (i : Option β) (ready : Bool) : List β :=
  if S.accepts s i ready then i.toList else []

theorem conserves' (S : Stage β) (s : S.State) (i : Option β) (ready : Bool) :
    S.contents s ++ S.taken s i ready = S.given s i ready ++ S.contents (S.next s i ready) := S.conserves s i ready

/-- A direct connection. -/
def wire (β : Type) : Stage β where
  State := Unit
  init := ()
  contents _ := []
  offer _ i := i
  accepts _ _ ready := ready
  next _ _ _ := ()
  contents_init := rfl
  conserves _ _ _ := by simp

/-- A register: it accepts when it is empty or is emptied in the same cycle. -/
def register (β : Type) : Stage β where
  State := Option β
  init := none
  contents s := s.toList
  offer s _ := s
  accepts s _ ready := s.isNone || ready
  next s i ready := if s.isNone || ready then i else s
  contents_init := rfl
  conserves s i ready := by cases s <;> cases ready <;> simp

/-- `S`, and `T` after it. -/
def comp (S T : Stage β) : Stage β where
  State := S.State × T.State
  init := (S.init, T.init)
  contents s := T.contents s.2 ++ S.contents s.1
  offer s i := T.offer s.2 (S.offer s.1 i)
  accepts s i ready := S.accepts s.1 i (T.accepts s.2 (S.offer s.1 i) ready)
  next s i ready :=
    (S.next s.1 i (T.accepts s.2 (S.offer s.1 i) ready), T.next s.2 (S.offer s.1 i) ready)
  contents_init := by simp [S.contents_init, T.contents_init]
  conserves s i ready := by
    have hS := S.conserves s.1 i (T.accepts s.2 (S.offer s.1 i) ready)
    have hT := T.conserves s.2 (S.offer s.1 i) ready
    rw [List.append_assoc, hS, ← List.append_assoc, hT, List.append_assoc]

/-- Any number of stages in a row. -/
def chain : List (Stage β) → Stage β
  | [] => wire β
  | S :: Ss => S.comp (chain Ss)

/-- It accepts whatever it is offered as long as its receiver is ready. -/
def Open (S : Stage β) : Prop := ∀ s i, S.accepts s i true = true

theorem open_wire : (wire β).Open := fun _ _ => rfl

theorem Open.comp {S T : Stage β} (hS : S.Open) (hT : T.Open) : (S.comp T).Open := by
  rintro ⟨s, t⟩ i
  change S.accepts s i (T.accepts t (S.offer s i) true) = true
  rw [hT t, hS s]

theorem open_chain {Ss : List (Stage β)} (h : ∀ S ∈ Ss, S.Open) : (chain Ss).Open := by
  induction Ss with
  | nil => exact open_wire
  | cons S Ss ih =>
    rw [List.forall_mem_cons] at h
    exact h.1.comp (ih h.2)

/-- One cycle between a sender that offers the first of the items that are left, or nothing, and a
receiver: the items received, those held and those left stay the items there were. -/
theorem conserves_cycle (S : Stage β) {s : S.State} {received left sent : List β} {i : Option β}
    (h : received ++ S.contents s ++ left = sent) (hi : ∀ x, i = some x → left.head? = some x) (ready : Bool) :
    received ++ S.given s i ready ++ S.contents (S.next s i ready) ++
        (if i.isSome && S.accepts s i ready then left.tail else left) = sent := by
  have hleft : S.taken s i ready ++ (if i.isSome && S.accepts s i ready then left.tail else left) = left := by
    unfold taken
    cases i with
    | none => simp
    | some x =>
      obtain ⟨rest, rfl⟩ : ∃ rest, left = x :: rest := by
        cases left with
        | nil => exact absurd (hi x rfl) (by simp)
        | cons y rest => exact ⟨rest, by rw [Option.some.inj (hi x rfl)]⟩
      cases S.accepts s (some x) ready <;> simp
  calc received ++ S.given s i ready ++ S.contents (S.next s i ready) ++
        (if i.isSome && S.accepts s i ready then left.tail else left)
      = received ++ (S.contents s ++ S.taken s i ready) ++
          (if i.isSome && S.accepts s i ready then left.tail else left) := by
        rw [S.conserves', List.append_assoc received]
    _ = received ++ S.contents s ++ left := by
        rw [← List.append_assoc received, List.append_assoc _ (S.taken s i ready), hleft]
    _ = sent := h

end Stage

/-! ## Frames -/

section Frames

variable {β : Type} (last : β → Bool)

/-- The items cut after each last one: the complete frames, and what is left. -/
def cut : List β → List (List β) × List β
  | [] => ([], [])
  | x :: xs =>
      if last x then ([x] :: (cut xs).1, (cut xs).2)
      else
        match cut xs with
        | ([], rest) => ([], x :: rest)
        | (frame :: frames, rest) => ((x :: frame) :: frames, rest)

variable {last}

/-- A further item completes the frame that is open, or stays in it. -/
theorem cut_concat (xs : List β) (x : β) : cut last (xs ++ [x]) =
      if last x then ((cut last xs).1 ++ [(cut last xs).2 ++ [x]], []) else ((cut last xs).1, (cut last xs).2 ++ [x]) := by
  induction xs with
  | nil =>
    by_cases hx : last x = true <;> simp [cut, hx]
  | cons y ys ih =>
    rw [List.cons_append, cut, cut]
    rw [ih]
    by_cases hx : last x = true <;> by_cases hy : last y = true
    · simp [hx, hy]
    · cases h : cut last ys with
      | mk frames rest => cases frames <;> simp [hx, hy]
    · simp [hx, hy]
    · cases h : cut last ys with
      | mk frames rest => cases frames <;> simp [hx, hy]

end Frames

end Veriforge.Pipeline

/-! # Computations on a state that may raise

What a computation wrote before it raised is kept, as an exception of the source leaves it. -/

namespace Veriforge

variable {ε σ α β : Type}

/-- A computation on a state; raising keeps the state reached. -/
def Exec (ε σ α : Type) := σ → Except ε α × σ

namespace Exec

instance : Monad (Exec ε σ) where
  pure a := fun s => (.ok a, s)
  bind x f := fun s =>
    match x s with
    | (.ok a, t) => f a t
    | (.error e, t) => (.error e, t)

/-- `raise`. -/
def raise (e : ε) : Exec ε σ α := fun s => (.error e, s)

/-- A function of the state. -/
def read (f : σ → α) : Exec ε σ α := fun s => (.ok (f s), s)

/-- The value, or an exception where there is none. -/
def ofOption (e : ε) : Option α → Exec ε σ α
  | some a => fun s => (.ok a, s)
  | none => raise e

/-- A change of the state. -/
def update (f : σ → σ) : Exec ε σ Unit := fun s => (.ok (), f s)

@[simp] theorem pure_apply (a : α) (s : σ) : (pure a : Exec ε σ α) s = (.ok a, s) := rfl

@[simp] theorem raise_apply (e : ε) (s : σ) : (raise e : Exec ε σ α) s = (.error e, s) := rfl

@[simp] theorem read_apply (f : σ → α) (s : σ) : (read f : Exec ε σ α) s = (.ok (f s), s) := rfl

@[simp] theorem update_apply (f : σ → σ) (s : σ) : (update f : Exec ε σ Unit) s = (.ok (), f s) := rfl

theorem bind_of_ok {x : Exec ε σ α} {s t : σ} {a : α} (h : x s = (.ok a, t)) (f : α → Exec ε σ β) :
    (x >>= f) s = f a t := by
  show (match x s with | (.ok a, t) => f a t | (.error e, t) => (.error e, t)) = f a t
  rw [h]

theorem bind_of_error {x : Exec ε σ α} {s t : σ} {e : ε} (h : x s = (.error e, t))
    (f : α → Exec ε σ β) : (x >>= f) s = (.error e, t) := by
  show (match x s with | (.ok a, t) => f a t | (.error e, t) => (.error e, t)) = _
  rw [h]

/-- A sequence that does not raise is made of two parts that do not. -/
theorem parts_of_ok {x : Exec ε σ α} {f : α → Exec ε σ β} {s u : σ} {b : β}
    (h : (x >>= f) s = (.ok b, u)) : ∃ a t, x s = (.ok a, t) ∧ f a t = (.ok b, u) := by
  rcases hx : x s with ⟨e | a, t⟩
  · rw [bind_of_error hx f] at h
    cases h
  · rw [bind_of_ok hx f] at h
    exact ⟨a, t, rfl, h⟩

@[simp] theorem pure_then (a : α) (f : α → Exec ε σ β) : (pure a >>= f : Exec ε σ β) = f a := rfl

@[simp] theorem bind_unit (x : Exec ε σ Unit) : (x >>= fun _ => pure ()) = x := by
  funext s
  rcases hx : x s with ⟨e | a, t⟩
  · exact bind_of_error hx _
  · exact bind_of_ok hx _

@[simp] theorem ofOption_some (e : ε) (a : α) : (ofOption e (some a) : Exec ε σ α) = pure a := rfl

theorem eq_of_ofOption {e : ε} {o : Option α} {a : α} {s t : σ}
    (h : (ofOption e o : Exec ε σ α) s = (.ok a, t)) : o = some a ∧ s = t := by
  cases o with
  | none => cases h
  | some b =>
    cases h
    exact ⟨rfl, rfl⟩

end Exec

end Veriforge

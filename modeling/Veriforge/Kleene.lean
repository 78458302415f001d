import Mathlib.Data.Option.Basic
import Mathlib.Order.Basic

/-! # Partial bits and their information order

A *partial bit* is an `Option Bool`: `some b` is a known bit, `none` an unknown one. Knowing more is
an order (`Known.le`): an unknown bit is below every bit, a known bit only below itself. The
connectives are Kleene's strong three-valued ones — an operand that decides the result decides it
whatever the other operand is — and each is monotone: refining an operand never changes a bit of
the result that was already known. -/

namespace Veriforge.Kleene

/-- `a ≼ b`: every bit `a` knows, `b` knows with the same value. -/
def Le (a b : Option Bool) : Prop := ∀ k, a = some k → b = some k

theorem Le.refl (a : Option Bool) : Le a a := fun _ h => h

theorem Le.trans {a b c : Option Bool} (hab : Le a b) (hbc : Le b c) : Le a c :=
  fun k h => hbc k (hab k h)

/-- An unknown bit is refined by every bit. -/
@[simp] theorem Le.none_left (b : Option Bool) : Le none b := fun _ h => nomatch h

/-- A known bit is refined only by itself. -/
@[simp] theorem le_some_left {k : Bool} {b : Option Bool} : Le (some k) b ↔ b = some k :=
  ⟨fun h => h k rfl, fun h _ hk => by rw [h, hk]⟩

theorem Le.antisymm {a b : Option Bool} (hab : Le a b) (hba : Le b a) : a = b := by
  cases a with
  | none =>
    cases b with
    | none => rfl
    | some k => exact hba k rfl
  | some k => exact (hab k rfl).symm

/-- Conjunction: a known `false` decides. -/
def and : Option Bool → Option Bool → Option Bool
  | some false, _ => some false
  | _, some false => some false
  | some true, some true => some true
  | _, _ => none

/-- Disjunction: a known `true` decides. -/
def or : Option Bool → Option Bool → Option Bool
  | some true, _ => some true
  | _, some true => some true
  | some false, some false => some false
  | _, _ => none

/-- Exclusive or: both operands are needed. -/
def xor : Option Bool → Option Bool → Option Bool
  | some a, some b => some (a ^^ b)
  | _, _ => none

/-- Negation. -/
def not : Option Bool → Option Bool
  | some a => some !a
  | none => none

/-- Agreement: the common value of two known equal bits, unknown otherwise. -/
def agree : Option Bool → Option Bool → Option Bool
  | some a, some b => if a = b then some a else none
  | _, _ => none

theorem and_mono {a a' b b' : Option Bool} (ha : Le a a') (hb : Le b b') : Le (and a b) (and a' b') := by
  rcases a with _ | _ | _ <;> rcases b with _ | _ | _ <;> simp_all [and]
  rcases a' with _ | _ | _ <;> simp_all

theorem or_mono {a a' b b' : Option Bool} (ha : Le a a') (hb : Le b b') : Le (or a b) (or a' b') := by
  rcases a with _ | _ | _ <;> rcases b with _ | _ | _ <;> simp_all [or]
  rcases a' with _ | _ | _ <;> simp_all

theorem xor_mono {a a' b b' : Option Bool} (ha : Le a a') (hb : Le b b') : Le (xor a b) (xor a' b') := by
  rcases a with _ | _ | _ <;> rcases b with _ | _ | _ <;> simp_all [xor]

theorem not_mono {a a' : Option Bool} (ha : Le a a') : Le (not a) (not a') := by
  rcases a with _ | _ | _ <;> simp_all [not]

theorem agree_mono {a a' b b' : Option Bool} (ha : Le a a') (hb : Le b b') : Le (agree a b) (agree a' b') := by
  rcases a with _ | _ | _ <;> rcases b with _ | _ | _ <;> simp_all [agree]

/-- Agreement knows no more than its left operand. -/
theorem agree_le_left (a b : Option Bool) : Le (agree a b) a := by
  rcases a with _ | _ | _ <;> rcases b with _ | _ | _ <;> simp [agree]

/-- Agreement knows no more than its right operand. -/
theorem agree_le_right (a b : Option Bool) : Le (agree a b) b := by
  rcases a with _ | _ | _ <;> rcases b with _ | _ | _ <;> simp [agree]

end Veriforge.Kleene

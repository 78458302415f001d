import Mathlib.Logic.Function.Basic

/-! # The changes of traced signals

A value is a pair of its bits and its unknown bits, and a signal its position among the names of a session.
A stream is what the hub has delivered to a session, in order, each change with its time. -/

namespace Veriforge.Trace

/-- A change that the hub delivers: a signal and its value. -/
structure Change where
  signal : Nat
  value : Nat × Nat
  deriving DecidableEq

/-- `_cur`. -/
abbrev Values := Nat → Nat × Nat

/-- The values after a delivery. -/
def applied (changes : List Change) (values : Values) : Values :=
  changes.foldl (fun values c => Function.update values c.signal c.value) values

/-- The values after some changes of a stream. -/
def valuesAfter (cur : Values) (changes : List (Nat × Change)) : Values :=
  changes.foldl (fun values x => Function.update values x.2.signal x.2.value) cur

theorem valuesAfter_concat (cur : Values) (changes : List (Nat × Change)) (x : Nat × Change) :
    valuesAfter cur (changes ++ [x]) = Function.update (valuesAfter cur changes) x.2.signal x.2.value := by
  unfold valuesAfter
  rw [List.foldl_append]
  rfl

theorem valuesAfter_delivery (cur : Values) (stream : List (Nat × Change)) (time : Nat) (changes : List Change) :
    valuesAfter cur (stream ++ changes.map fun c => (time, c)) = applied changes (valuesAfter cur stream) := by
  unfold valuesAfter applied
  rw [List.foldl_append, List.foldl_map]

end Veriforge.Trace

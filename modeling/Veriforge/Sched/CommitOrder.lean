import Veriforge.Sched.VmTracking

/-! # Who is due when updates are applied

In both Python kernels nobody is due at a commit exactly when the region just run disturbs nobody.
A region does disturb somebody as soon as a clock is derived: the block that computes the clock and
the blocks of the clock it is computed from run in one region, so the updates of the latter are in the
registers before the blocks of the derived clock read them. -/

namespace Veriforge.Sched

open Design

variable {Name : Type} [DecidableEq Name]

/-- The signals of a ripple counter's first stage. -/
inductive Wire where
  | clk
  | d
  | q
  | g
  | r
  deriving DecidableEq

/-- A one-bit signal that holds `b`. -/
def bitSlot (b : Bool) : Slot := ⟨b.toNat, [Value.ofInt b.toNat 1]⟩

/-- `always @* g = clk;`, `always @(posedge clk) q <= d;`, `always @(posedge g) r <= q;`. -/
def ripple : Design Wire where
  memory := fun _ => false
  assigns := []
  combos := [⟨1, {.clk}, ∅, [], false, fun σ => ⟨[(.g, σ .clk)], []⟩⟩]
  seqs :=
    [⟨2, {.clk}, ∅, [(.clk, .posedge)], false, fun σ => ⟨[], [⟨.q, fun _ => σ .d⟩]⟩⟩,
      ⟨3, {.g}, ∅, [(.g, .posedge)], false, fun σ => ⟨[], [⟨.r, fun _ => σ .q⟩]⟩⟩]
  ids_nodup := by decide

/-- `d` is 1, the rest 0. -/
def rippleRest : Rest Wire where
  store := fun n => bitSlot (decide (n = .d))
  own := fun _ => none
  bootstrapped := true
  pending := ∅
  snapshot := fun n => bitSlot (decide (n = .d))
  driven := fun _ h => absurd rfl h

/-- The rising edge of `clk`. -/
def rippleDriven : Rest Wire := driveSignal rippleRest (.clk, bitSlot true)

/-- The state in which the first region of the batch runs. -/
def rippleStart : Kernel Wire × List (Always Wire) :=
  ripple.driven 100 (atSettle rippleDriven) rippleDriven.pending

theorem ripple_soleWriters : ripple.SoleWriters := by
  constructor
  case assigns => exact fun a ha => absurd ha List.not_mem_nil
  case blocks =>
    have htarget : ∀ p ∈ ripple.combos ++ ripple.seqs, ∀ n, p.Writes n →
        (p.id = 1 ∧ n = .g) ∨ (p.id = 2 ∧ n = .q) ∨ (p.id = 3 ∧ n = .r) := by
      intro p hp n hn
      simp only [ripple, List.cons_append, List.nil_append, List.mem_cons, List.not_mem_nil, or_false] at hp
      rcases hp with rfl | rfl | rfl <;> obtain ⟨σ, hn⟩ := hn <;> simpa using hn
    intro p hp q hq n hpn hqn
    rcases htarget p hp n hpn with ⟨hi, hn⟩ | ⟨hi, hn⟩ | ⟨hi, hn⟩ <;>
      rcases htarget q hq n hqn with ⟨hj, hm⟩ | ⟨hj, hm⟩ | ⟨hj, hm⟩ <;>
      rw [hi, hj] <;> rw [hn] at hm <;> exact nomatch hm
  case across => exact fun a ha => absurd ha List.not_mem_nil

/-- Without assigns there is nothing to propagate. -/
theorem propagate_of_assigns_nil {D : Design Name} (h : D.assigns = []) (k : Nat) (σ : Store Name)
    (dirty : Finset Name) : D.propagate k σ dirty = (σ, dirty) := by
  cases k with
  | zero => rfl
  | succ k =>
    rw [propagate, runDirty, h]
    rfl

end Veriforge.Sched

import Mathlib.Data.List.Basic
import Mathlib.Data.List.Range
import Mathlib.Logic.Function.Basic

/-! # Queues in a ring of slots

A queue is kept in a ring of slots: its words are those of the slots from the read position up to the write position,
both counted on without end and taken modulo the number of slots. Writing fills the slot after the last word, which is
free as long as there are fewer words than slots; reading gives the first word and moves on. -/

namespace Veriforge.Ring

variable {α : Type} {slots : Nat}

/-- The `count` words from position `first` on. -/
def contents (mem : Nat → α) (slots first count : Nat) : List α :=
  (List.range count).map fun i => mem ((first + i) % slots)

@[simp] theorem contents_length (mem : Nat → α) (first count : Nat) :
    (contents mem slots first count).length = count := by
  simp [contents]

@[simp] theorem contents_zero (mem : Nat → α) (first : Nat) : contents mem slots first 0 = [] := rfl

/-- Only the slots in use count. -/
theorem contents_congr {mem mem' : Nat → α} {first count : Nat}
    (h : ∀ i < count, mem ((first + i) % slots) = mem' ((first + i) % slots)) :
    contents mem slots first count = contents mem' slots first count :=
  List.map_congr_left fun i hi => h i (List.mem_range.mp hi)

/-- One word more. -/
theorem contents_succ (mem : Nat → α) (first count : Nat) :
    contents mem slots first (count + 1) = contents mem slots first count ++ [mem ((first + count) % slots)] := by
  rw [contents, List.range_succ, List.map_append]
  rfl

/-- The first word. -/
theorem contents_cons (mem : Nat → α) (first count : Nat) :
    contents mem slots first (count + 1) = mem (first % slots) :: contents mem slots (first + 1) count := by
  rw [contents, List.range_succ_eq_map, List.map_cons, List.map_map, Nat.add_zero, contents]
  congr 1
  apply List.map_congr_left
  intro i _
  rw [Function.comp_apply, Nat.succ_eq_add_one, Nat.add_comm i 1, Nat.add_assoc]

/-- Two positions within the ring's length of each other have different slots. -/
theorem mod_ne_mod {p q : Nat} (hpq : p < q) (h : q - p < slots) : p % slots ≠ q % slots := by
  intro heq
  have hdvd : slots ∣ q - p := Nat.dvd_of_mod_eq_zero (Nat.sub_mod_eq_zero_of_mod_eq heq.symm)
  have hle := Nat.le_of_dvd (by omega) hdvd
  omega

/-- A write to the slot after the last word, where it is free. -/
theorem contents_update (mem : Nat → α) (a : α) {first count : Nat} (h : count < slots) :
    contents (Function.update mem ((first + count) % slots) a) slots first (count + 1) =
      contents mem slots first count ++ [a] := by
  rw [contents_succ, Function.update_self]
  congr 1
  apply contents_congr
  intro i hi
  rw [Function.update_of_ne]
  exact mod_ne_mod (by omega) (by omega)

/-- A read takes the first word. -/
theorem contents_tail (mem : Nat → α) {first count : Nat} (h : 0 < count) :
    (contents mem slots first count).tail = contents mem slots (first + 1) (count - 1) := by
  obtain ⟨n, rfl⟩ := Nat.exists_eq_succ_of_ne_zero h.ne'
  rw [contents_cons, List.tail_cons, Nat.succ_sub_one]

theorem contents_head? (mem : Nat → α) {first count : Nat} (h : 0 < count) :
    (contents mem slots first count).head? = some (mem (first % slots)) := by
  obtain ⟨n, rfl⟩ := Nat.exists_eq_succ_of_ne_zero h.ne'
  rw [contents_cons, List.head?_cons]

/-- A write and a read, either or both, in one step. -/
theorem contents_step (mem : Nat → α) (a : α) {r w : Nat} (hle : r ≤ w) {writes reads : Bool}
    (hwrite : writes = true → w - r < slots) (hread : reads = true → r < w) :
    contents (if writes then Function.update mem (w % slots) a else mem) slots (if reads then r + 1 else r)
        ((if writes then w + 1 else w) - (if reads then r + 1 else r)) =
      (if reads then (contents mem slots r (w - r)).tail else contents mem slots r (w - r)) ++
        (if writes then [a] else []) := by
  -- a write comes first, and a read then takes a word that was there before it
  have hwritten : contents (if writes then Function.update mem (w % slots) a else mem) slots r
      ((if writes then w + 1 else w) - r) = contents mem slots r (w - r) ++ (if writes then [a] else []) := by
    cases writes with
    | false => simp
    | true =>
      have h : contents (Function.update mem ((r + (w - r)) % slots) a) slots r (w - r + 1) = _ :=
        contents_update mem a (hwrite rfl)
      rw [Nat.add_sub_cancel' hle] at h
      simpa [Nat.sub_add_comm hle] using h
  cases reads with
  | false => exact hwritten
  | true =>
    have hlt := hread rfl
    have hne : contents mem slots r (w - r) ≠ [] := by
      rw [← List.length_pos_iff, contents_length]
      omega
    have hpos : 0 < (if writes then w + 1 else w) - r := by
      split <;> omega
    simp only [if_true]
    rw [← Nat.sub_sub, ← contents_tail _ hpos, hwritten, List.tail_append_of_ne_nil hne]

/-! ## Pointers with one bit more than an address has -/

/-- Counted modulo twice the slots, equal positions have written nothing that was not read. -/
theorem empty_iff {r w : Nat} (hle : r ≤ w) (hmax : w - r ≤ slots) (hslots : 0 < slots) :
    w % (2 * slots) = r % (2 * slots) ↔ w = r := by
  constructor
  · intro h
    by_contra hne
    have hrw : r % (2 * slots) ≠ w % (2 * slots) := mod_ne_mod (by omega) (by omega)
    exact hrw h.symm
  · rintro rfl
    rfl

/-- The slots are the same and the bits above differ where the positions are as far apart as there are slots. -/
theorem full_iff {r w : Nat} (hle : r ≤ w) (hmax : w - r ≤ slots) (hslots : 0 < slots) :
    (w / slots % 2 ≠ r / slots % 2 ∧ w % slots = r % slots) ↔ w - r = slots := by
  constructor
  · rintro ⟨hbit, hslot⟩
    by_contra hne
    have heq : w = r := by
      by_contra hwr
      have hrw : r % slots ≠ w % slots := mod_ne_mod (by omega) (by omega)
      exact hrw hslot.symm
    exact hbit (by rw [heq])
  · intro h
    obtain rfl : w = r + slots := by omega
    rw [Nat.add_div_right _ hslots, Nat.add_mod_right]
    omega

end Veriforge.Ring

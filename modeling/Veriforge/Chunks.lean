import Mathlib.Data.List.Nodup
import Mathlib.Tactic.Common

/-! # Lists cut into chunks, and cells written from a list

A list cut into chunks from its front; the chunks put together in reverse order, and the same from its back; and cells
of a store that are given the elements of a list, one after the other. -/

namespace Veriforge

variable {α κ : Type*}

/-! ## Chunks in reverse order -/

/-- The chunks of `n` from the front, the last of which may be shorter, in reverse order. -/
def packChunks (n : Nat) (l : List α) : List α :=
  if _h : n = 0 ∨ l.length ≤ n then l else packChunks n (l.drop n) ++ l.take n
  termination_by l.length
  decreasing_by
    rw [List.length_drop]
    omega

/-- The chunks of `n` from the back, the last of which may be shorter, in reverse order. -/
def unpackChunks (n : Nat) (l : List α) : List α :=
  if _h : n = 0 ∨ l.length ≤ n then l else l.drop (l.length - n) ++ unpackChunks n (l.take (l.length - n))
  termination_by l.length
  decreasing_by
    rw [List.length_take]
    omega

variable {n : Nat} {l : List α}

theorem packChunks_of_le (h : l.length ≤ n) : packChunks n l = l := by
  rw [packChunks, dif_pos (Or.inr h)]

theorem packChunks_of_lt (hn : 0 < n) (h : n < l.length) : packChunks n l = packChunks n (l.drop n) ++ l.take n := by
  rw [packChunks, dif_neg (by omega)]

theorem unpackChunks_of_le (h : l.length ≤ n) : unpackChunks n l = l := by
  rw [unpackChunks, dif_pos (Or.inr h)]

theorem unpackChunks_of_lt (hn : 0 < n) (h : n < l.length) :
    unpackChunks n l = l.drop (l.length - n) ++ unpackChunks n (l.take (l.length - n)) := by
  rw [unpackChunks, dif_neg (by omega)]

/-- Neither order loses or repeats an element. -/
theorem perm_packChunks (n : Nat) (l : List α) : (packChunks n l).Perm l := by
  induction l using packChunks.induct n with
  | case1 l h => rw [packChunks, dif_pos h]
  | case2 l h ih =>
    rw [packChunks, dif_neg h]
    exact (ih.append_right _).trans (List.perm_append_comm.trans (by rw [List.take_append_drop]))

theorem perm_unpackChunks (n : Nat) (l : List α) : (unpackChunks n l).Perm l := by
  induction l using unpackChunks.induct n with
  | case1 l h => rw [unpackChunks, dif_pos h]
  | case2 l h ih =>
    rw [unpackChunks, dif_neg h]
    exact (ih.append_left _).trans (List.perm_append_comm.trans (by rw [List.take_append_drop]))

/-- What was cut from the back is put back by cutting from the front: the short chunk has changed ends. -/
theorem packChunks_unpackChunks (hn : 0 < n) (l : List α) : packChunks n (unpackChunks n l) = l := by
  induction l using unpackChunks.induct n with
  | case1 l h =>
    have hle : l.length ≤ n := h.resolve_left (by omega)
    rw [unpackChunks_of_le hle, packChunks_of_le hle]
  | case2 l h ih =>
    have hlt : n < l.length := by omega
    have hchunk : (l.drop (l.length - n)).length = n := by
      rw [List.length_drop]
      omega
    have hlen : n < (unpackChunks n l).length := by
      rw [(perm_unpackChunks n l).length_eq]
      exact hlt
    rw [packChunks_of_lt hn hlen, unpackChunks_of_lt hn hlt, List.drop_left' hchunk, List.take_left' hchunk, ih,
      List.take_append_drop]

theorem unpackChunks_packChunks (hn : 0 < n) (l : List α) : unpackChunks n (packChunks n l) = l := by
  induction l using packChunks.induct n with
  | case1 l h =>
    have hle : l.length ≤ n := h.resolve_left (by omega)
    rw [packChunks_of_le hle, unpackChunks_of_le hle]
  | case2 l h ih =>
    have hlt : n < l.length := by omega
    have hchunk : (l.take n).length = n := by
      rw [List.length_take]
      omega
    have hlen : n < (packChunks n l).length := by
      rw [(perm_packChunks n l).length_eq]
      exact hlt
    have hrest : (packChunks n l).length - n = (packChunks n (l.drop n)).length := by
      rw [(perm_packChunks n l).length_eq, (perm_packChunks n (l.drop n)).length_eq, List.length_drop]
    rw [unpackChunks_of_lt hn hlen, hrest, packChunks_of_lt hn hlt, List.drop_left, List.take_left, ih,
      List.take_append_drop]

/-- Two elements or more in more than one chunk do not stay where they are. -/
theorem exists_packChunks_ne (hn : 0 < n) {t : Nat} (ht : n < t) {a b : α} (hab : a ≠ b) :
    packChunks n (a :: List.replicate (t - 1) b) ≠ a :: List.replicate (t - 1) b := by
  obtain ⟨m, rfl⟩ : ∃ m, n = m + 1 := ⟨n - 1, by omega⟩
  intro h
  have hlen : m + 1 < (a :: List.replicate (t - 1) b).length := by
    rw [List.length_cons, List.length_replicate]
    omega
  rw [packChunks_of_lt hn hlen] at h
  -- the first element comes from the chunks behind the first
  have hmem : ∀ x ∈ packChunks (m + 1) ((a :: List.replicate (t - 1) b).drop (m + 1)), x = b := by
    intro x hx
    have hx := (perm_packChunks _ _).mem_iff.mp hx
    rw [List.drop_succ_cons, List.drop_replicate] at hx
    exact List.eq_of_mem_replicate hx
  cases hpack : packChunks (m + 1) ((a :: List.replicate (t - 1) b).drop (m + 1)) with
  | nil =>
    have hzero := (perm_packChunks (m + 1) ((a :: List.replicate (t - 1) b).drop (m + 1))).length_eq
    rw [hpack, List.length_drop, List.length_nil] at hzero
    omega
  | cons x xs =>
    rw [hpack, List.cons_append] at h
    have hx := hmem x (by rw [hpack]; exact List.mem_cons_self)
    exact hab ((List.cons.inj h).1.symm.trans hx)

/-! ## Chunks in order -/

/-- The chunks of `n` from the front, the last of which may be shorter. -/
def chunks (n : Nat) (l : List α) : List (List α) :=
  if _h : n = 0 ∨ l = [] then [] else l.take n :: chunks n (l.drop n)
  termination_by l.length
  decreasing_by
    rw [not_or, ← List.length_eq_zero_iff] at _h
    rw [List.length_drop]
    omega

@[simp] theorem chunks_nil (n : Nat) : chunks n ([] : List α) = [] := by
  rw [chunks, dif_pos (Or.inr rfl)]

theorem chunks_of_ne (hn : 0 < n) (h : l ≠ []) : chunks n l = l.take n :: chunks n (l.drop n) := by
  rw [chunks, dif_neg (not_or.mpr ⟨Nat.pos_iff_ne_zero.mp hn, h⟩)]

/-- A first chunk that is full, or is the only one. -/
theorem chunks_append {c : List α} (hc : c ≠ []) (hn : c.length = n ∨ c.length ≤ n ∧ l = []) :
    chunks n (c ++ l) = c :: chunks n l := by
  have hpos : 0 < c.length := List.length_pos_of_ne_nil hc
  rw [chunks_of_ne (by omega) (by simp [hc])]
  rcases hn with rfl | ⟨hle, rfl⟩
  · rw [List.take_left, List.drop_left]
  · rw [List.append_nil, List.take_of_length_le hle, List.drop_of_length_le hle]

/-- The chunks put together are the list. -/
theorem flatten_chunks (hn : 0 < n) (l : List α) : (chunks n l).flatten = l := by
  induction l using chunks.induct n with
  | case1 l h =>
    rw [h.resolve_left (Nat.pos_iff_ne_zero.mp hn), chunks_nil]
    rfl
  | case2 l h ih =>
    rw [chunks_of_ne hn (not_or.mp h).2, List.flatten_cons, ih, List.take_append_drop]

/-- A chunk has elements, and no more than `n`. -/
theorem mem_chunks {c : List α} (hn : 0 < n) (h : c ∈ chunks n l) : c ≠ [] ∧ c.length ≤ n ∧ ∀ x ∈ c, x ∈ l := by
  induction l using chunks.induct n with
  | case1 l hl =>
    rw [hl.resolve_left (Nat.pos_iff_ne_zero.mp hn), chunks_nil] at h
    cases h
  | case2 l hl ih =>
    rw [chunks_of_ne hn (not_or.mp hl).2, List.mem_cons] at h
    rcases h with rfl | h
    · refine ⟨fun hnil => (not_or.mp hl).2 ?_, List.length_take_le _ _, fun x hx => List.mem_of_mem_take hx⟩
      exact (List.take_eq_nil_iff.mp hnil).resolve_left (Nat.pos_iff_ne_zero.mp hn)
    · obtain ⟨hne, hle, hmem⟩ := ih h
      exact ⟨hne, hle, fun x hx => List.mem_of_mem_drop (hmem x hx)⟩

/-! ## Cells written one after the other -/

section

variable [DecidableEq κ]

/-- The cells hold the elements, one after the other; the others hold what they held. -/
def putCells (σ : κ → α) : List κ → List α → κ → α
  | c :: cs, a :: as => putCells (Function.update σ c a) cs as
  | _, _ => σ

theorem putCells_append (σ : κ → α) {cs : List κ} {as : List α} (h : cs.length = as.length) (cs' : List κ)
    (as' : List α) : putCells σ (cs ++ cs') (as ++ as') = putCells (putCells σ cs as) cs' as' := by
  induction cs generalizing σ as with
  | nil =>
    cases as with
    | nil => rfl
    | cons a as => cases h
  | cons c cs ih =>
    cases as with
    | nil => cases h
    | cons a as => exact ih _ (Nat.succ.inj h)

/-- A cell that is not written keeps what it holds. -/
theorem putCells_of_notMem (σ : κ → α) {cs : List κ} (as : List α) {c : κ} (h : c ∉ cs) : putCells σ cs as c = σ c := by
  induction cs generalizing σ as with
  | nil => rfl
  | cons d cs ih =>
    cases as with
    | nil => rfl
    | cons a as =>
      rw [putCells, ih _ _ fun hmem => h (List.mem_cons_of_mem _ hmem)]
      exact Function.update_of_ne (fun hcd => h (by rw [hcd]; exact List.mem_cons_self)) _ _

/-- Distinct cells hold what was written. -/
theorem putCells_getElem? (σ : κ → α) {cs : List κ} {as : List α} (hnodup : cs.Nodup) {i : Nat} {c : κ} {a : α}
    (hc : cs[i]? = some c) (ha : as[i]? = some a) : putCells σ cs as c = a := by
  induction cs generalizing σ as i with
  | nil => cases hc
  | cons d cs ih =>
    cases as with
    | nil => cases ha
    | cons b as =>
      obtain ⟨hd, hcs⟩ := List.nodup_cons.mp hnodup
      cases i with
      | zero =>
        cases hc
        cases ha
        rw [putCells, putCells_of_notMem _ _ hd, Function.update_self]
      | succ i => exact ih _ hcs hc ha

theorem map_putCells (σ : κ → α) {cs : List κ} {as : List α} (hnodup : cs.Nodup) (hlen : cs.length = as.length) :
    cs.map (putCells σ cs as) = as := by
  refine List.ext_getElem? fun i => ?_
  rw [List.getElem?_map]
  cases hc : cs[i]? with
  | none =>
    rw [List.getElem?_eq_none_iff, hlen] at hc
    rw [List.getElem?_eq_none hc]
    rfl
  | some c =>
    obtain ⟨hi, -⟩ := List.getElem?_eq_some_iff.mp hc
    have ha : as[i]? = some as[i] := List.getElem?_eq_getElem (hlen ▸ hi)
    rw [Option.map_some, ha, putCells_getElem? σ hnodup hc ha]

end

/-- Whatever the cells of a list hold, a list with a repeated cell does not read as every list. -/
theorem exists_ne_map_of_not_nodup {cs : List κ} (h : ¬ cs.Nodup) {a b : α} (hab : a ≠ b) :
    ∃ as : List α, as.length = cs.length ∧ (∀ x ∈ as, x = a ∨ x = b) ∧ ∀ σ : κ → α, cs.map σ ≠ as := by
  obtain ⟨i, j, c, hij, hi, hj⟩ : ∃ i j c, i < j ∧ cs[i]? = some c ∧ cs[j]? = some c := by
    by_contra hne
    refine h (List.nodup_iff_getElem?_ne_getElem?.mpr fun i j hij hj heq => hne ?_)
    exact ⟨i, j, cs[j], hij, heq.trans (List.getElem?_eq_getElem hj), List.getElem?_eq_getElem hj⟩
  refine ⟨(List.range cs.length).map fun k => if k = i then a else b, ?_, ?_, fun σ hσ => ?_⟩
  · rw [List.length_map, List.length_range]
  · intro x hx
    obtain ⟨k, -, rfl⟩ := List.mem_map.mp hx
    by_cases hk : k = i
    · exact Or.inl (if_pos hk)
    · exact Or.inr (if_neg hk)
  · have hget : ∀ k, cs[k]? = some c → σ c = if k = i then a else b := by
      intro k hk
      obtain ⟨hlt, -⟩ := List.getElem?_eq_some_iff.mp hk
      have hmap := congrArg (fun as => as[k]?) hσ
      rw [List.getElem?_map, hk, List.getElem?_map, List.getElem?_range hlt] at hmap
      exact Option.some.inj hmap
    have hai := hget i hi
    have hbj := hget j hj
    rw [if_pos rfl] at hai
    rw [if_neg (by omega), hai] at hbj
    exact hab hbj

end Veriforge

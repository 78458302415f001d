import Mathlib.Data.List.Nodup
import Mathlib.Data.List.Range
import Mathlib.Data.List.Count
import Mathlib.Data.List.Chain
import Mathlib.Logic.Function.Basic

/-! # Kahn's algorithm

A graph on the numbers below a bound, each with the list of its parents. Nodes become ready when their last parent
has been put in order; the depth of a node is one more than the largest depth of a parent. If all nodes get in order,
the order is topological, and the depths are the lengths of the longest paths. -/

namespace Veriforge.Graph

/-- A finite graph by the parents of every node, each counted once. -/
structure Parents where
  size : Nat
  parents : Nat → List Nat
  nodup : ∀ i, (parents i).Nodup
  lt : ∀ i, ∀ p ∈ parents i, p < size

/-- The state of the algorithm. -/
structure Kahn where
  ready : List Nat
  order : List Nat
  depth : Nat → Nat
  /-- How many parents are not in order yet. -/
  pending : Nat → Nat

namespace Kahn

/-- A child of a node that was put in order: it is deeper, and has one parent less to wait for. -/
def relax (index : Nat) (s : Kahn) (child : Nat) : Kahn where
  ready := if s.pending child - 1 = 0 then s.ready ++ [child] else s.ready
  order := s.order
  depth := Function.update s.depth child (max (s.depth child) (s.depth index + 1))
  pending := Function.update s.pending child (s.pending child - 1)

/-- A node is put in order. -/
def visit (children : List Nat) (index : Nat) (ready : List Nat) (s : Kahn) : Kahn :=
  children.foldl (relax index) { s with ready := ready, order := s.order ++ [index] }

/-- The loop, with the visits left. -/
def run (children : Nat → List Nat) : Nat → Kahn → Kahn
  | 0, s => s
  | k + 1, s =>
      match s.ready with
      | [] => s
      | index :: ready => run children k (visit (children index) index ready s)

end Kahn

namespace Kahn

variable {children : List Nat} {index : Nat}

theorem relax_pending (s : Kahn) (c j : Nat) :
    (relax index s c).pending j = if j = c then s.pending c - 1 else s.pending j :=
  Function.update_apply _ _ _ _

theorem relax_depth (s : Kahn) (c j : Nat) :
    (relax index s c).depth j = if j = c then max (s.depth c) (s.depth index + 1) else s.depth j :=
  Function.update_apply _ _ _ _

theorem foldl_relax_order (children : List Nat) (s : Kahn) : (children.foldl (relax index) s).order = s.order := by
  induction children generalizing s with
  | nil => rfl
  | cons c cs ih => exact ih (relax index s c)

/-- What the loop over the children does. -/
theorem foldl_relax (hnodup : children.Nodup) (hindex : index ∉ children) (s : Kahn) :
    (children.foldl (relax index) s).ready = s.ready ++ children.filter (fun j => s.pending j - 1 = 0) ∧
      ∀ j, ((children.foldl (relax index) s).depth j =
          if j ∈ children then max (s.depth j) (s.depth index + 1) else s.depth j) ∧
        (children.foldl (relax index) s).pending j = if j ∈ children then s.pending j - 1 else s.pending j := by
  induction children generalizing s with
  | nil => simp
  | cons c cs ih =>
    obtain ⟨hc, hcs⟩ := List.nodup_cons.mp hnodup
    rw [List.mem_cons, not_or] at hindex
    obtain ⟨hready, hnode⟩ := ih hcs hindex.2 (relax index s c)
    rw [List.foldl_cons]
    refine ⟨?_, fun j => ?_⟩
    · -- the pending counts of the other children are those of `s`
      have hrest : cs.filter (fun j => (relax index s c).pending j - 1 = 0) =
          cs.filter (fun j => s.pending j - 1 = 0) := by
        refine List.filter_congr fun j hj => ?_
        have hne : j ≠ c := fun h => hc (h ▸ hj)
        rw [relax_pending, if_neg hne]
      rw [hready, hrest, List.filter_cons, relax]
      by_cases h0 : s.pending c - 1 = 0
      · simp [h0]
      · simp [h0]
    · obtain ⟨hdepth, hpending⟩ := hnode j
      rw [hdepth, hpending, relax_pending, relax_depth, relax_depth, if_neg hindex.1]
      by_cases hj : j = c
      · subst hj
        simp [hc]
      · simp [hj]

section Visit

variable (s : Kahn) (ready : List Nat)

theorem visit_order (children : List Nat) : (visit children index ready s).order = s.order ++ [index] :=
  foldl_relax_order _ _

theorem visit_ready (hnodup : children.Nodup) (hindex : index ∉ children) :
    (visit children index ready s).ready = ready ++ children.filter fun j => s.pending j - 1 = 0 :=
  (foldl_relax hnodup hindex _).1

theorem visit_depth (hnodup : children.Nodup) (hindex : index ∉ children) (j : Nat) :
    (visit children index ready s).depth j =
      if j ∈ children then max (s.depth j) (s.depth index + 1) else s.depth j :=
  ((foldl_relax hnodup hindex _).2 j).1

theorem visit_pending (hnodup : children.Nodup) (hindex : index ∉ children) (j : Nat) :
    (visit children index ready s).pending j = if j ∈ children then s.pending j - 1 else s.pending j :=
  ((foldl_relax hnodup hindex _).2 j).2

end Visit

end Kahn

namespace Parents

variable (G : Parents)

/-- The children of a node, one entry for each time it is a parent. -/
def children (p : Nat) : List Nat :=
  (List.range G.size).flatMap fun i => ((G.parents i).filter fun q => q = p).map fun _ => i

/-- Every node waits for all its parents; those without parents are ready. -/
def start : Kahn where
  ready := (List.range G.size).filter fun i => (G.parents i).length = 0
  order := []
  depth _ := 1
  pending i := (G.parents i).length

/-- The state after the loop. -/
def kahn : Kahn := Kahn.run G.children G.size G.start

variable {G}

theorem mem_children {p i : Nat} : i ∈ G.children p ↔ i < G.size ∧ p ∈ G.parents i := by
  simp only [children, List.mem_flatMap, List.mem_range, List.mem_map, List.mem_filter, decide_eq_true_eq]
  constructor
  · rintro ⟨j, hj, q, ⟨hq, rfl⟩, rfl⟩
    exact ⟨hj, hq⟩
  · rintro ⟨hi, hp⟩
    exact ⟨i, hi, p, ⟨hp, rfl⟩, rfl⟩

theorem children_nodup (p : Nat) : (G.children p).Nodup := by
  refine List.nodup_flatMap.mpr ⟨fun i _ => ?_, ?_⟩
  · -- a parent that is listed once gives one entry
    have hle : ((G.parents i).filter fun q => q = p).length ≤ 1 := by
      rw [← List.countP_eq_length_filter]
      simpa [List.count, beq_eq_decide] using List.nodup_iff_count_le_one.mp (G.nodup i) p
    generalize (G.parents i).filter (fun q => decide (q = p)) = l at hle
    match l, hle with
    | [], _ => exact List.nodup_nil
    | [_], _ => exact List.nodup_singleton _
  · refine List.nodup_range.imp ?_
    intro i j hij
    simp only [Function.onFun, List.disjoint_left, List.mem_map]
    rintro x ⟨_, _, rfl⟩ ⟨_, _, rfl⟩
    exact hij rfl

variable (G) in
/-- Before each visit: the nodes in order and the ready ones are those with all parents in order, each once; the order
is topological so far; and the depths count the parents in order. -/
structure Ordered (s : Kahn) : Prop where
  nodup : (s.order ++ s.ready).Nodup
  mem : ∀ i, i ∈ s.order ++ s.ready ↔ i < G.size ∧ ∀ p ∈ G.parents i, p ∈ s.order
  pending : ∀ i < G.size, s.pending i = ((G.parents i).filter fun p => p ∉ s.order).length
  before : ∀ pre i post, s.order = pre ++ i :: post → ∀ p ∈ G.parents i, p ∈ pre
  deeper : ∀ i < G.size, ∀ p ∈ G.parents i, p ∈ s.order → s.depth p + 1 ≤ s.depth i
  least : ∀ i, s.depth i = 1 ∨ ∃ p ∈ G.parents i, p ∈ s.order ∧ s.depth i = s.depth p + 1

theorem start_ordered (G : Parents) : G.Ordered G.start where
  nodup := List.nodup_range.filter _
  mem i := by
    rw [start, List.nil_append, List.mem_filter, List.mem_range, decide_eq_true_eq, List.length_eq_zero_iff]
    apply and_congr_right
    intro _
    rw [List.eq_nil_iff_forall_not_mem]
    exact forall_congr' fun p => imp_congr_right fun _ => by simp
  pending i _ := by simp [start]
  before pre i post h := by
    have hlen := congrArg List.length h
    simp [start] at hlen
  deeper i _ p _ hp := absurd hp List.not_mem_nil
  least i := Or.inl rfl

namespace Ordered

variable {s : Kahn} {index : Nat} {ready : List Nat}

/-- The count of the parents that are not in order loses the one that is put there. -/
theorem pending_visit {l order : List Nat} (hnodup : l.Nodup) (hnot : index ∉ order) :
    (l.filter fun p => p ∉ order ++ [index]).length =
      if index ∈ l then (l.filter fun p => p ∉ order).length - 1 else (l.filter fun p => p ∉ order).length := by
  have herase : (l.filter fun p => p ∉ order ++ [index]) = (l.filter fun p => p ∉ order).erase index := by
    rw [(hnodup.filter _).erase_eq_filter, List.filter_filter]
    refine List.filter_congr fun p _ => ?_
    by_cases hp : p ∈ order <;> by_cases hi : p = index <;> simp [hp, hi]
  rw [herase]
  split
  · next h =>
    apply List.length_erase_of_mem
    exact List.mem_filter.mpr ⟨h, by simpa using hnot⟩
  · next h =>
    rw [List.erase_of_not_mem]
    exact fun hmem => h (List.mem_filter.mp hmem).1

/-- A visit keeps the invariant. -/
theorem visit (h : G.Ordered s) (hr : s.ready = index :: ready) :
    G.Ordered (Kahn.visit (G.children index) index ready s) := by
  have hnodup := h.nodup
  rw [hr] at hnodup
  have hindex : index ∉ s.order := fun hmem =>
    (List.disjoint_of_nodup_append hnodup) hmem List.mem_cons_self
  have hin : index ∈ s.order ++ s.ready := by
    rw [hr]
    exact List.mem_append_right _ List.mem_cons_self
  have hparents := ((h.mem index).mp hin).2
  -- a child waits for the node, so it is neither in order nor ready
  have hchild : ∀ j ∈ G.children index, j ∉ s.order ++ s.ready := by
    intro j hj hmem
    exact hindex (((h.mem j).mp hmem).2 index (mem_children.mp hj).2)
  have hself : index ∉ G.children index := fun hmem => hchild index hmem hin
  have horder : (Kahn.visit (G.children index) index ready s).order = s.order ++ [index] :=
    Kahn.visit_order s ready _
  have hready := Kahn.visit_ready s ready (children_nodup index) hself
  have hdepth := Kahn.visit_depth s ready (children_nodup index) hself
  have hpending := Kahn.visit_pending s ready (children_nodup index) hself
  generalize Kahn.visit (G.children index) index ready s = t at horder hready hdepth hpending
  have hcount : ∀ j < G.size, t.pending j = ((G.parents j).filter fun p => p ∉ s.order ++ [index]).length := by
    intro j hj
    rw [pending_visit (G.nodup j) hindex, ← h.pending j hj, hpending]
    exact if_congr (mem_children.trans (and_iff_right hj)) rfl rfl
  have hzero : ∀ j ∈ G.children index, (s.pending j - 1 = 0 ↔ ∀ p ∈ G.parents j, p ∈ s.order ++ [index]) := by
    intro j hj
    have hcj := hcount j (mem_children.mp hj).1
    rw [hpending, if_pos hj] at hcj
    rw [hcj, List.length_eq_zero_iff, List.filter_eq_nil_iff]
    exact forall₂_congr fun p _ => by rw [decide_eq_true_eq, not_not]
  -- the depths of the nodes in order do not change any more
  have hfinal : ∀ p ∈ s.order ++ [index], t.depth p = s.depth p := by
    intro p hp
    rw [hdepth, if_neg]
    intro hmem
    refine hchild p hmem ?_
    rcases List.mem_append.mp hp with hp | hp
    · exact List.mem_append_left _ hp
    · rwa [List.mem_singleton.mp hp]
  have hmono : ∀ i, s.depth i ≤ t.depth i := by
    intro i
    rw [hdepth]
    split
    · exact le_max_left _ _
    · exact le_refl _
  have hnodes : t.order ++ t.ready =
      (s.order ++ s.ready) ++ (G.children index).filter fun j => s.pending j - 1 = 0 := by
    rw [horder, hready, hr]
    simp
  refine ⟨?_, fun i => ?_, fun j hj => ?_, fun pre i post heq p hp => ?_, fun i hi p hp hmem => ?_, fun i => ?_⟩
  · rw [hnodes]
    refine h.nodup.append ((children_nodup index).filter _) ?_
    intro x hx hx'
    exact hchild x (List.mem_filter.mp hx').1 hx
  · rw [hnodes, horder, List.mem_append, List.mem_filter, decide_eq_true_eq]
    constructor
    · rintro (hmem | ⟨hmem, hz⟩)
      · obtain ⟨hi, hall⟩ := (h.mem i).mp hmem
        exact ⟨hi, fun p hp => List.mem_append_left _ (hall p hp)⟩
      · exact ⟨(mem_children.mp hmem).1, (hzero i hmem).mp hz⟩
    · rintro ⟨hi, hall⟩
      by_cases hp : index ∈ G.parents i
      · have hmem : i ∈ G.children index := mem_children.mpr ⟨hi, hp⟩
        exact Or.inr ⟨hmem, (hzero i hmem).mpr hall⟩
      · refine Or.inl ((h.mem i).mpr ⟨hi, fun p hpi => ?_⟩)
        rcases List.mem_append.mp (hall p hpi) with hmem | hmem
        · exact hmem
        · exact absurd (List.mem_singleton.mp hmem ▸ hpi) hp
  · rw [horder]
    exact hcount j hj
  · rw [horder] at heq
    rcases List.eq_nil_or_concat' post with rfl | ⟨post', z, rfl⟩
    · obtain ⟨rfl, hi⟩ := List.append_inj' heq rfl
      exact hparents p ((List.singleton_inj.mp hi).symm ▸ hp)
    · rw [← List.cons_append, ← List.append_assoc] at heq
      obtain ⟨heq, -⟩ := List.append_inj' heq rfl
      exact h.before pre i post' heq p hp
  · rw [horder] at hmem
    rw [hfinal p hmem]
    rcases List.mem_append.mp hmem with hmem | hmem
    · exact (h.deeper i hi p hp hmem).trans (hmono i)
    · obtain rfl := List.mem_singleton.mp hmem
      rw [hdepth, if_pos (mem_children.mpr ⟨hi, hp⟩)]
      exact le_max_right _ _
  · have hold : s.depth i = 1 ∨ ∃ p ∈ G.parents i, p ∈ s.order ++ [index] ∧ s.depth i = t.depth p + 1 := by
      rcases h.least i with h1 | ⟨p, hp, hmem, heq⟩
      · exact Or.inl h1
      · have hmem' := List.mem_append_left [index] hmem
        exact Or.inr ⟨p, hp, hmem', by rw [hfinal p hmem', heq]⟩
    rw [horder, hdepth i]
    split
    · next hmem =>
      rcases le_total (s.depth index + 1) (s.depth i) with hle | hle
      · rw [max_eq_left hle]
        exact hold
      · have hself' : index ∈ s.order ++ [index] := List.mem_append_right _ (List.mem_singleton_self _)
        rw [max_eq_right hle]
        exact Or.inr ⟨index, (mem_children.mp hmem).2, hself', by rw [hfinal index hself']⟩
    · exact hold

/-- The visits end with no node ready. -/
theorem run {k : Nat} {s : Kahn} (h : G.Ordered s) (hk : G.size ≤ k + s.order.length) :
    G.Ordered (Kahn.run G.children k s) ∧ (Kahn.run G.children k s).ready = [] := by
  induction k generalizing s with
  | zero =>
    refine ⟨h, ?_⟩
    have hsub : s.order ++ s.ready ⊆ List.range G.size := fun i hi =>
      List.mem_range.mpr ((h.mem i).mp hi).1
    have hlen := (List.subperm_of_subset h.nodup hsub).length_le
    rw [List.length_append, List.length_range] at hlen
    apply List.eq_nil_of_length_eq_zero
    show s.ready.length = 0
    omega
  | succ k ih =>
    rw [Kahn.run]
    cases hr : s.ready with
    | nil => exact ⟨h, hr⟩
    | cons index ready =>
      apply ih (h.visit hr)
      have horder : (Kahn.visit (G.children index) index ready s).order.length = s.order.length + 1 := by
        rw [Kahn.visit_order, List.length_append, List.length_singleton]
      omega

end Ordered

/-- The loop ends with no node ready. -/
theorem kahn_ordered (G : Parents) : G.Ordered G.kahn ∧ G.kahn.ready = [] :=
  (start_ordered G).run (Nat.le_add_right _ _)

/-! ## When all nodes get in order -/

variable (G) in
/-- Nodes each of which is a parent of the next one. -/
def IsPath (path : List Nat) : Prop := path ≠ [] ∧ (∀ i ∈ path, i < G.size) ∧ path.IsChain fun a b => a ∈ G.parents b

/-- Some path is as long as the depth of its last node. -/
theorem exists_path {i : Nat} (hi : i < G.size) :
    ∃ path, G.IsPath (path ++ [i]) ∧ (path ++ [i]).length = G.kahn.depth i := by
  have hordered := (kahn_ordered G).1
  induction hd : G.kahn.depth i using Nat.strong_induction_on generalizing i with
  | h d ih =>
    rcases hordered.least i with hone | ⟨p, hp, -, heq⟩
    · refine ⟨[], ⟨by simp, ?_, List.isChain_singleton _⟩, by rw [← hd, hone]; rfl⟩
      intro j hj
      rwa [List.mem_singleton.mp hj]
    · obtain ⟨path, hpath, hlen⟩ := ih (G.kahn.depth p) (by omega) (G.lt i p hp) rfl
      refine ⟨path ++ [p], ⟨by simp, ?_, ?_⟩, ?_⟩
      · intro j hj
        rcases List.mem_append.mp hj with hj | hj
        · exact hpath.2.1 j hj
        · rwa [List.mem_singleton.mp hj]
      · refine List.isChain_append.mpr ⟨hpath.2.2, List.isChain_singleton _, ?_⟩
        intro x hx y hy
        simp only [List.getLast?_concat, Option.mem_def, Option.some.injEq, List.head?_cons] at hx hy
        rwa [← hx, ← hy]
      · rw [List.length_append, hlen, ← hd, heq, List.length_singleton]

section Complete

variable (h : G.kahn.order.length = G.size)

include h

theorem order_perm : G.kahn.order.Perm (List.range G.size) := by
  obtain ⟨hordered, hready⟩ := kahn_ordered G
  have hnodup := hordered.nodup
  have hmem := hordered.mem
  rw [hready, List.append_nil] at hnodup hmem
  have hsub : G.kahn.order ⊆ List.range G.size := fun i hi => List.mem_range.mpr ((hmem i).mp hi).1
  exact (List.subperm_of_subset hnodup hsub).perm_of_length_le (by rw [h, List.length_range])

theorem mem_order {i : Nat} (hi : i < G.size) : i ∈ G.kahn.order :=
  (order_perm h).mem_iff.mpr (List.mem_range.mpr hi)

/-- No path is longer than the depth of its last node. -/
theorem length_le_depth {path : List Nat} {i : Nat} (hp : G.IsPath (path ++ [i])) :
    (path ++ [i]).length ≤ G.kahn.depth i := by
  have hordered := (kahn_ordered G).1
  induction path using List.reverseRecOn generalizing i with
  | nil =>
    rcases hordered.least i with hone | ⟨p, -, -, heq⟩
    · exact hone.ge
    · rw [heq]
      exact Nat.le_add_left _ _
  | append_singleton path p ih =>
    obtain ⟨-, hlt, hchain⟩ := hp
    have hi : i < G.size := hlt i (List.mem_append_right _ (List.mem_singleton_self i))
    have hpi : p ∈ G.parents i := by
      rw [List.append_assoc, List.singleton_append, List.isChain_append] at hchain
      simpa using hchain.2.1
    have hpath : G.IsPath (path ++ [p]) :=
      ⟨by simp, fun j hj => hlt j (List.mem_append_left _ hj), (List.isChain_append.mp hchain).1⟩
    have hdeeper := hordered.deeper i hi p hpi (mem_order h (G.lt i p hpi))
    have hpre := ih hpath
    rw [List.length_append, List.length_singleton]
    omega

end Complete

end Parents

end Veriforge.Graph

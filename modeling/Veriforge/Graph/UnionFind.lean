import Mathlib.Data.List.Induction
import Mathlib.Logic.Function.Iterate
import Mathlib.Logic.Relation

/-! # Union-find

A forest of parent pointers over any type of names. Names that were never mentioned are their own roots. The forest
carries a bound on its depth, so that looking for a root ends. Two names have one root exactly if the unions connect
them. -/

namespace Veriforge.Graph

variable {Name : Type} [DecidableEq Name]

/-- A forest: the parent of every name, a root being its own, and how many names were put below another one. -/
structure UnionFind (Name : Type) where
  parent : Name → Name
  links : Nat
  rooted : ∀ x, parent (parent^[links] x) = parent^[links] x

namespace UnionFind

/-- The forest of single names. -/
def empty : UnionFind Name := ⟨id, 0, fun _ => rfl⟩

/-- The root of a name. -/
def find (u : UnionFind Name) (x : Name) : Name := u.parent^[u.links] x

@[simp] theorem find_empty (x : Name) : (empty : UnionFind Name).find x = x := rfl

theorem parent_find (u : UnionFind Name) (x : Name) : u.parent (u.find x) = u.find x := u.rooted x

theorem find_find (u : UnionFind Name) (x : Name) : u.find (u.find x) = u.find x :=
  Function.iterate_fixed (u.parent_find x) u.links

/-! ## Following other pointers -/

section Follow

variable {parent parent' : Name → Name} {root root' : Name}

/-- Pointers that differ only at a root lead from every other tree to where they led. -/
theorem iterate_update_of_ne (hroot : parent root = root) {n : Nat} {x : Name} (h : parent^[n] x ≠ root) :
    (Function.update parent root root')^[n] x = parent^[n] x := by
  induction n generalizing x with
  | zero => rfl
  | succ n ih =>
    rw [Function.iterate_succ_apply] at h
    have hx : x ≠ root := by
      intro hx
      rw [hx, hroot, Function.iterate_fixed hroot] at h
      exact h rfl
    rw [Function.iterate_succ_apply, Function.iterate_succ_apply, Function.update_of_ne hx, ih h]

/-- They lead from the tree of the root to the new root, one step later. -/
theorem iterate_update_succ (hroot' : Function.update parent root root' root' = root') {n : Nat} {x : Name}
    (h : parent^[n] x = root) : (Function.update parent root root')^[n + 1] x = root' := by
  induction n generalizing x with
  | zero =>
    rw [Function.iterate_zero_apply] at h
    rw [h]
    exact Function.update_self root root' parent
  | succ n ih =>
    by_cases hx : x = root
    · rw [hx, Function.iterate_succ_apply, Function.update_self]
      exact Function.iterate_fixed hroot' (n + 1)
    · rw [Function.iterate_succ_apply, Function.update_of_ne hx]
      exact ih h

end Follow

/-! ## Union -/

/-- The tree of `right` is put below the root of `left`. -/
def union (u : UnionFind Name) (left right : Name) : UnionFind Name :=
  if h : u.find left = u.find right then u
  else
    { parent := Function.update u.parent (u.find right) (u.find left)
      links := u.links + 1
      rooted := fun x => by
        have hroot' : Function.update u.parent (u.find right) (u.find left) (u.find left) = u.find left := by
          rw [Function.update_of_ne h, u.parent_find]
        by_cases hx : u.find x = u.find right
        · rw [iterate_update_succ hroot' hx, hroot']
        · rw [Function.iterate_succ_apply', iterate_update_of_ne (u.parent_find right) hx]
          rw [show u.parent^[u.links] x = u.find x from rfl, Function.update_of_ne hx, u.parent_find,
            Function.update_of_ne hx, u.parent_find] }

theorem find_union (u : UnionFind Name) (left right x : Name) :
    (u.union left right).find x = if u.find x = u.find right then u.find left else u.find x := by
  unfold union
  split
  · next h =>
    split
    · next hx => rw [hx, h]
    · rfl
  · next h =>
    have hroot' : Function.update u.parent (u.find right) (u.find left) (u.find left) = u.find left := by
      rw [Function.update_of_ne h, u.parent_find]
    split
    · next hx => exact iterate_update_succ hroot' hx
    · next hx =>
      have hsame : (Function.update u.parent (u.find right) (u.find left))^[u.links] x = u.find x :=
        iterate_update_of_ne (u.parent_find right) hx
      calc (Function.update u.parent (u.find right) (u.find left))^[u.links + 1] x
          = Function.update u.parent (u.find right) (u.find left) (u.find x) := by
            rw [Function.iterate_succ_apply', hsame]
        _ = u.find x := by rw [Function.update_of_ne hx, u.parent_find]

/-- A union joins the trees of its two names, and no others. -/
theorem find_union_eq_iff (u : UnionFind Name) (left right x y : Name) :
    (u.union left right).find x = (u.union left right).find y ↔
      u.find x = u.find y ∨ (u.find x = u.find left ∧ u.find y = u.find right) ∨
        (u.find x = u.find right ∧ u.find y = u.find left) := by
  rw [find_union, find_union]
  split <;> split <;> grind

/-! ## Shortening a path -/

theorem iterate_of_links_le (u : UnionFind Name) {k : Nat} (hk : u.links ≤ k) (x : Name) :
    u.parent^[k] x = u.find x := by
  obtain ⟨d, rfl⟩ := Nat.exists_eq_add_of_le hk
  rw [Nat.add_comm, Function.iterate_add_apply]
  exact Function.iterate_fixed (u.parent_find x) d

/-- After `n` steps the shortened path has come at least as far as the old one. -/
theorem exists_iterate_update (u : UnionFind Name) (x : Name) (n : Nat) (z : Name) :
    ∃ k, n ≤ k ∧ (Function.update u.parent x (u.find x))^[n] z = u.parent^[k] z := by
  induction n generalizing z with
  | zero => exact ⟨0, Nat.le_refl 0, rfl⟩
  | succ n ih =>
    by_cases hz : z = x
    · obtain ⟨k, hk, heq⟩ := ih (u.find x)
      refine ⟨k + 1 + u.links, by omega, ?_⟩
      rw [Function.iterate_succ_apply, hz, Function.update_self, heq, Function.iterate_add_apply]
      rw [Function.iterate_fixed (u.parent_find x)]
      exact (Function.iterate_fixed (u.parent_find x) (k + 1)).symm
    · obtain ⟨k, hk, heq⟩ := ih (u.parent z)
      refine ⟨k + 1, by omega, ?_⟩
      rw [Function.iterate_succ_apply, Function.update_of_ne hz, heq, Function.iterate_succ_apply]

/-- The name is put directly below its root. -/
def compress (u : UnionFind Name) (x : Name) : UnionFind Name where
  parent := Function.update u.parent x (u.find x)
  links := u.links
  rooted y := by
    obtain ⟨k, hk, heq⟩ := u.exists_iterate_update x u.links y
    rw [heq, u.iterate_of_links_le hk]
    by_cases hx : u.find y = x
    · rw [hx, Function.update_self, ← hx, find_find]
    · rw [Function.update_of_ne hx, u.parent_find]

/-- No root changes. -/
theorem find_compress (u : UnionFind Name) (x y : Name) : (u.compress x).find y = u.find y := by
  obtain ⟨k, hk, heq⟩ := u.exists_iterate_update x u.links y
  exact heq.trans (u.iterate_of_links_le hk y)

theorem find_foldl_compress (names : List Name) (u : UnionFind Name) (y : Name) :
    (names.foldl compress u).find y = u.find y := by
  induction names generalizing u with
  | nil => rfl
  | cons x names ih => rw [List.foldl_cons, ih, find_compress]

inductive Call (Name : Type)
  | find (name : Name)
  | union (left right : Name)

/-- `find`: every name on the way to the root is put directly below it. -/
def shorten (u : UnionFind Name) (x : Name) : UnionFind Name :=
  ((List.range u.links).map fun n => u.parent^[n] x).foldl compress u

/-- A call. -/
def call (u : UnionFind Name) : Call Name → UnionFind Name
  | .find x => u.shorten x
  | .union left right => ((u.shorten left).shorten right).union left right

/-- The call where `find` leaves the forest as it is. -/
def plainCall (u : UnionFind Name) : Call Name → UnionFind Name
  | .find _ => u
  | .union left right => u.union left right

/-- After any calls every name has the root that it has where no path is shortened. -/
theorem find_calls (calls : List (Call Name)) (y : Name) :
    (calls.foldl call empty).find y = (calls.foldl plainCall empty).find y := by
  have hrun : ∀ u v : UnionFind Name, (∀ x, u.find x = v.find x) →
      (calls.foldl call u).find y = (calls.foldl plainCall v).find y := by
    induction calls with
    | nil => exact fun u v h => h y
    | cons c calls ih =>
      refine fun u v h => ih _ _ fun x => ?_
      cases c with
      | find name => rw [call, plainCall, shorten, find_foldl_compress, h]
      | union left right => simp only [call, plainCall, find_union, shorten, find_foldl_compress, h]
  exact hrun empty empty fun _ => rfl

/-! ## The classes of a list of unions -/

/-- The forest of these unions. -/
def ofPairs (pairs : List (Name × Name)) : UnionFind Name := pairs.foldl (fun u p => u.union p.1 p.2) empty

/-- The names that the unions connect. -/
def Connected (pairs : List (Name × Name)) : Name → Name → Prop := Relation.EqvGen fun x y => (x, y) ∈ pairs

omit [DecidableEq Name] in
theorem Connected.mono {pairs pairs' : List (Name × Name)} (h : ∀ p ∈ pairs, p ∈ pairs') {x y : Name}
    (hxy : Connected pairs x y) : Connected pairs' x y := by
  induction hxy with
  | rel a b hp => exact .rel a b (h _ hp)
  | refl a => exact .refl a
  | symm a b _ ih => exact .symm a b ih
  | trans a b c _ _ ih ih' => exact .trans a b c ih ih'

theorem find_ofPairs_iff (pairs : List (Name × Name)) (x y : Name) :
    (ofPairs pairs).find x = (ofPairs pairs).find y ↔ Connected pairs x y := by
  induction pairs using List.reverseRecOn generalizing x y with
  | nil =>
    refine ⟨fun h => ?_, fun h => ?_⟩
    · rw [show x = y from h]
      exact .refl y
    · induction h with
      | rel _ _ h => exact absurd h List.not_mem_nil
      | refl => rfl
      | symm _ _ _ ih => exact ih.symm
      | trans _ _ _ _ _ ih ih' => exact ih.trans ih'
  | append_singleton pairs p ih =>
    have hfold : ofPairs (pairs ++ [p]) = (ofPairs pairs).union p.1 p.2 := by
      simp [ofPairs, List.foldl_append]
    have hold : ∀ {a b}, Connected pairs a b → Connected (pairs ++ [p]) a b :=
      Connected.mono fun q hq => List.mem_append_left _ hq
    have hnew : Connected (pairs ++ [p]) p.1 p.2 := .rel _ _ (by simp)
    rw [hfold, find_union_eq_iff]
    refine ⟨?_, fun h => ?_⟩
    · rintro (h | ⟨hx, hy⟩ | ⟨hx, hy⟩)
      · exact hold ((ih x y).mp h)
      · exact .trans _ _ _ (hold ((ih _ _).mp hx)) (.trans _ _ _ hnew (.symm _ _ (hold ((ih _ _).mp hy))))
      · exact .trans _ _ _ (hold ((ih _ _).mp hx)) (.trans _ _ _ (.symm _ _ hnew) (.symm _ _ (hold ((ih _ _).mp hy))))
    · induction h with
      | rel a b h =>
        rcases List.mem_append.mp h with h | h
        · exact .inl ((ih a b).mpr (.rel _ _ h))
        · obtain rfl := List.mem_singleton.mp h
          exact .inr (.inl ⟨rfl, rfl⟩)
      | refl => exact .inl rfl
      | symm _ _ _ ih' => grind
      | trans _ _ _ _ _ ih' ih'' => grind

end UnionFind

end Veriforge.Graph

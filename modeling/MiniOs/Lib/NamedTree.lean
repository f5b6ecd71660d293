import Mathlib.Data.List.Lex
import Mathlib.Data.List.Nodup

/-!
# Trees with named children

A tree whose inner nodes have named children, in some order of their own, and its
depth-first walk, which visits the children of a node in the order of their names and may
pass over some names.

## Main definitions

- `NamedTree` — the trees
- `NamedTree.walk` — the walk: the path to each node, and whether it is an inner node
- `NamedTree.Visits` — the nodes that can be reached by names that are kept

## Main results

- `NamedTree.mem_walk_iff` — the walk meets just those nodes
- `NamedTree.pairwise_walk` — in lexicographic order of their paths
- `NamedTree.eq_walk` — and no other list does so
-/

namespace MiniOs

universe u

/-- A finite tree with named children. -/
inductive NamedTree (ν : Type u) where
  | leaf
  | dir (entries : List (ν × NamedTree ν))

namespace NamedTree

variable {ν : Type u}

/-- An inner node. -/
def isDir : NamedTree ν → Bool
  | leaf => false
  | dir _ => true

theorem sizeOf_child_lt [SizeOf ν] {es : List (ν × NamedTree ν)} {e : ν × NamedTree ν}
    (h : e ∈ es) :
    sizeOf e.2 < sizeOf (dir es) := by
  have hmem := List.sizeOf_lt_of_mem h
  obtain ⟨name, t⟩ := e
  simp only [Prod.mk.sizeOf_spec, dir.sizeOf_spec] at hmem ⊢
  omega

/-- The children that are kept, by name. -/
def sorted (le : ν → ν → Bool) (keep : ν → Bool) (es : List (ν × NamedTree ν)) :
    List (ν × NamedTree ν) :=
  (es.filter fun e => keep e.1).mergeSort fun a b => le a.1 b.1

theorem mem_sorted {le : ν → ν → Bool} {keep : ν → Bool} {es : List (ν × NamedTree ν)}
    {e : ν × NamedTree ν} : e ∈ sorted le keep es ↔ e ∈ es ∧ keep e.1 = true := by
  rw [sorted, List.mem_mergeSort, List.mem_filter]

/-- The depth-first walk. -/
def walk (le : ν → ν → Bool) (keep : ν → Bool) : NamedTree ν → List (List ν × Bool)
  | leaf => []
  | dir es => (sorted le keep es).attach.flatMap fun e =>
      ([e.1.1], e.1.2.isDir) :: (walk le keep e.1.2).map fun w => (e.1.1 :: w.1, w.2)
termination_by t => sizeOf t
decreasing_by exact sizeOf_child_lt (mem_sorted.mp e.2).1

theorem walk_dir (le : ν → ν → Bool) (keep : ν → Bool) (es : List (ν × NamedTree ν)) :
    walk le keep (dir es) = (sorted le keep es).flatMap fun e =>
      ([e.1], e.2.isDir) :: (walk le keep e.2).map fun w => (e.1 :: w.1, w.2) := by
  rw [walk, List.flatMap_def, List.flatMap_def]
  apply congrArg List.flatten
  exact List.attach_map_val
    (f := fun e : ν × NamedTree ν =>
      ([e.1], e.2.isDir) :: (walk le keep e.2).map fun w => (e.1 :: w.1, w.2))

/-- The node at a path of kept names; the flag says whether it is an inner node. -/
inductive Visits (keep : ν → Bool) : NamedTree ν → List ν → Bool → Prop where
  | here {es : List (ν × NamedTree ν)} {e : ν × NamedTree ν} (hmem : e ∈ es)
      (hkeep : keep e.1 = true) : Visits keep (dir es) [e.1] e.2.isDir
  | deeper {es : List (ν × NamedTree ν)} {e : ν × NamedTree ν} {path : List ν} {d : Bool}
      (hmem : e ∈ es) (hkeep : keep e.1 = true) (h : Visits keep e.2 path d) :
      Visits keep (dir es) (e.1 :: path) d

/-- The children of each node have different names. -/
inductive Distinct : NamedTree ν → Prop where
  | leaf : Distinct leaf
  | dir {es : List (ν × NamedTree ν)} (nodup : (es.map (·.1)).Nodup)
      (children : ∀ e ∈ es, Distinct e.2) : Distinct (dir es)

variable {le : ν → ν → Bool} {keep : ν → Bool}

theorem Visits.ne_nil {t : NamedTree ν} {path : List ν} {d : Bool} (h : Visits keep t path d) :
    path ≠ [] := by
  cases h <;> exact List.cons_ne_nil _ _

/-- **Induction** on a tree. -/
theorem induction {motive : NamedTree ν → Prop} (leaf : motive leaf)
    (dir : ∀ es, (∀ e ∈ es, motive e.2) → motive (dir es)) (t : NamedTree ν) : motive t := by
  induction hn : sizeOf t using Nat.strongRecOn generalizing t with
  | _ n ih =>
  subst hn
  cases t with
  | leaf => exact leaf
  | dir es => exact dir es fun e he => ih (sizeOf e.2) (sizeOf_child_lt he) e.2 rfl

theorem mem_walk_iff {t : NamedTree ν} {path : List ν} {d : Bool} :
    (path, d) ∈ walk le keep t ↔ Visits keep t path d := by
  induction t using NamedTree.induction generalizing path with
  | leaf =>
    rw [walk]
    refine ⟨fun h => ?_, fun h => ?_⟩ <;> cases h
  | dir es ih =>
    rw [walk_dir, List.mem_flatMap]
    constructor
    · rintro ⟨e, he, hmem⟩
      obtain ⟨hes, hkeep⟩ := mem_sorted.mp he
      rw [List.mem_cons, List.mem_map] at hmem
      obtain heq | ⟨⟨rest, b⟩, hw, heq⟩ := hmem
      · cases heq
        exact .here hes hkeep
      · cases heq
        exact .deeper hes hkeep ((ih e hes).mp hw)
    · intro h
      cases h with
      | @here _ e hmem hkeep => exact ⟨e, mem_sorted.mpr ⟨hmem, hkeep⟩, List.mem_cons_self⟩
      | @deeper _ e rest _ hmem hkeep hv =>
        refine ⟨e, mem_sorted.mpr ⟨hmem, hkeep⟩, List.mem_cons_of_mem _ ?_⟩
        exact List.mem_map.mpr ⟨(rest, d), (ih e hmem).mpr hv, rfl⟩

/-- One name before another. -/
def Before (le : ν → ν → Bool) (a b : ν) : Prop := le a b = true ∧ a ≠ b

theorem not_lex_self (path : List ν) : ¬ List.Lex (Before le) path path := by
  induction path with
  | nil => exact fun h => nomatch h
  | cons a path ih =>
    intro h
    cases h with
    | cons h => exact ih h
    | rel h => exact h.2 rfl

theorem not_lex_of_lex (antisymm : ∀ a b, le a b = true → le b a = true → a = b) {p q : List ν}
    (h : List.Lex (Before le) p q) : ¬ List.Lex (Before le) q p := by
  induction h with
  | nil => exact fun h => nomatch h
  | cons _ ih =>
    intro h
    cases h with
    | cons h => exact ih h
    | rel h => exact h.2 rfl
  | rel hab =>
    intro h
    cases h with
    | cons _ => exact hab.2 rfl
    | rel hba => exact hab.2 (antisymm _ _ hab.1 hba.1)

section Order

variable (trans : ∀ a b c, le a b = true → le b c = true → le a c = true)
  (total : ∀ a b, (le a b || le b a) = true)

include trans total

theorem pairwise_sorted {es : List (ν × NamedTree ν)} (hnodup : (es.map (·.1)).Nodup) :
    (sorted le keep es).Pairwise fun a b => Before le a.1 b.1 := by
  have hsorted : (sorted le keep es).Pairwise fun a b => le a.1 b.1 = true :=
    List.pairwise_mergeSort (fun a b c => trans a.1 b.1 c.1) (fun a b => total a.1 b.1) _
  have hdistinct : (sorted le keep es).Pairwise fun a b => a.1 ≠ b.1 := by
    have hsub : ((es.filter fun e => keep e.1).map (·.1)).Nodup :=
      hnodup.sublist (List.filter_sublist.map _)
    have hperm := (List.mergeSort_perm (es.filter fun e => keep e.1)
      fun a b => le a.1 b.1).map (·.1)
    exact List.pairwise_map.mp (hperm.nodup_iff.mpr hsub)
  exact List.Pairwise.and hsorted hdistinct

/-- The walk meets the nodes in lexicographic order: a node before those below it, and
    these before what follows the node. -/
theorem pairwise_walk {t : NamedTree ν} (h : t.Distinct) :
    (walk le keep t).Pairwise fun a b => List.Lex (Before le) a.1 b.1 := by
  induction h with
  | leaf =>
    rw [walk]
    exact List.Pairwise.nil
  | @dir es hnodup hchildren ih =>
    rw [walk_dir, List.pairwise_flatMap]
    refine ⟨fun e he => ?_, (pairwise_sorted trans total hnodup).imp fun hbefore x hx y hy => ?_⟩
    · rw [List.pairwise_cons, List.pairwise_map]
      refine ⟨fun w hw => ?_, (ih e (mem_sorted.mp he).1).imp fun hlex => .cons hlex⟩
      obtain ⟨⟨path, d⟩, hpath, rfl⟩ := List.mem_map.mp hw
      obtain ⟨a, rest, rfl⟩ := List.exists_cons_of_ne_nil (mem_walk_iff.mp hpath).ne_nil
      exact .cons .nil
    · -- Paths through different children differ in their first name.
      have hhead : ∀ {e : ν × NamedTree ν} {w : List ν × Bool},
          w ∈ ([e.1], e.2.isDir) :: (walk le keep e.2).map (fun w => (e.1 :: w.1, w.2)) →
          ∃ rest, w.1 = e.1 :: rest := by
        intro e w hw
        obtain rfl | hw := List.mem_cons.mp hw
        · exact ⟨[], rfl⟩
        · obtain ⟨v, -, rfl⟩ := List.mem_map.mp hw
          exact ⟨v.1, rfl⟩
      obtain ⟨r, hr⟩ := hhead hx
      obtain ⟨s, hs⟩ := hhead hy
      rw [hr, hs]
      exact .rel hbefore

theorem nodup_walk {t : NamedTree ν} (h : t.Distinct) : (walk le keep t).Nodup := by
  refine (pairwise_walk trans total h).imp fun hlex heq => ?_
  rw [heq] at hlex
  exact not_lex_self _ hlex

/-- The walk is the only list of these nodes in this order. -/
theorem eq_walk (antisymm : ∀ a b, le a b = true → le b a = true → a = b) {t : NamedTree ν}
    (h : t.Distinct) {entries : List (List ν × Bool)}
    (hmem : ∀ path d, (path, d) ∈ entries ↔ Visits keep t path d)
    (hpair : entries.Pairwise fun a b => List.Lex (Before le) a.1 b.1) :
    entries = walk le keep t := by
  have hnodup : entries.Nodup := hpair.imp fun hlex heq => by
    rw [heq] at hlex
    exact not_lex_self _ hlex
  have hperm : entries.Perm (walk le keep t) :=
    (List.perm_ext_iff_of_nodup hnodup (nodup_walk trans total h)).mpr fun ⟨path, d⟩ =>
      (hmem path d).trans mem_walk_iff.symm
  exact hperm.eq_of_pairwise
    (fun _ _ _ _ hab hba => absurd hba (not_lex_of_lex antisymm hab)) hpair
    (pairwise_walk trans total h)

end Order

end NamedTree

end MiniOs

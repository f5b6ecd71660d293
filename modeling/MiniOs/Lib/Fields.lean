import Mathlib.Data.List.Basic
import MiniOs.Lib.Lines

/-!
# Fields

A list is cut at every occurrence of a separator `sep`, which is left out. `split` keeps
empty fields, `fields` drops them.

## Main definitions

- `cut` — the list in front of the first separator and behind it
- `split`, `fields` — all fields, and those that are not empty

## Main results

- `split_append`, `fields_append` — a separator divides the fields
- `split_append_of_notMem`, `cut_append`, `length_cut_lt` — field by field from the front
-/

namespace MiniOs.Fields

open Lines

variable {α : Type*} [DecidableEq α] (sep : α)

/-- What stands before and behind the first separator. -/
def cut : List α → Option (List α × List α)
  | [] => none
  | a :: l => if a = sep then some ([], l) else (cut l).map fun c => (a :: c.1, c.2)

/-- The fields between the separators. -/
def split : List α → List (List α)
  | [] => [[]]
  | a :: l => if a = sep then [] :: split l else consHead a (split l)

def fields (l : List α) : List (List α) := (split sep l).filter (· ≠ [])

variable {sep} {p l r : List α}

theorem cut_of_notMem (hp : sep ∉ p) : cut sep p = none := by
  induction p with
  | nil => rfl
  | cons a p ih =>
    simp only [List.mem_cons, not_or] at hp
    rw [cut, if_neg (Ne.symm hp.1), ih hp.2, Option.map_none]

theorem cut_append (hp : sep ∉ p) : cut sep (p ++ sep :: r) = some (p, r) := by
  induction p with
  | nil => rw [List.nil_append, cut, if_pos rfl]
  | cons a p ih =>
    simp only [List.mem_cons, not_or] at hp
    rw [List.cons_append, cut, if_neg (Ne.symm hp.1), ih hp.2, Option.map_some]

theorem length_cut_lt {c : List α × List α} (h : cut sep l = some c) : c.2.length < l.length := by
  induction l generalizing c with
  | nil => cases h
  | cons a l ih =>
    rw [cut] at h
    split at h
    · cases h
      exact Nat.lt_succ_self _
    · obtain ⟨d, hd, rfl⟩ := Option.map_eq_some_iff.mp h
      exact Nat.lt_succ_of_lt (show d.2.length < l.length from ih hd)

theorem split_ne_nil (sep : α) (l : List α) : split sep l ≠ [] := by
  cases l with
  | nil => exact List.cons_ne_nil _ _
  | cons a l =>
    rw [split]
    split
    · exact List.cons_ne_nil _ _
    · cases split sep l <;> exact List.cons_ne_nil _ _

theorem split_append (sep : α) (l r : List α) :
    split sep (l ++ sep :: r) = split sep l ++ split sep r := by
  induction l with
  | nil =>
    show split sep (sep :: r) = [] :: split sep r
    rw [split, if_pos rfl]
  | cons a l ih =>
    rw [List.cons_append, split, split, ih]
    split
    · rfl
    · exact consHead_append (split_ne_nil sep l)

theorem split_of_notMem (hp : sep ∉ p) : split sep p = [p] := by
  induction p with
  | nil => rfl
  | cons a p ih =>
    simp only [List.mem_cons, not_or] at hp
    rw [split, if_neg (Ne.symm hp.1), ih hp.2, consHead]

theorem split_append_of_notMem (hp : sep ∉ p) : split sep (p ++ sep :: r) = p :: split sep r := by
  rw [split_append, split_of_notMem hp, List.singleton_append]

theorem fields_append (sep : α) (l r : List α) :
    fields sep (l ++ sep :: r) = fields sep l ++ fields sep r := by
  simp [fields, split_append]

theorem fields_nil (sep : α) : fields sep [] = [] := rfl

theorem fields_of_notMem (hp : sep ∉ p) (hne : p ≠ []) : fields sep p = [p] := by
  simp [fields, split_of_notMem hp, hne]

theorem fields_cons_sep (sep : α) (l : List α) : fields sep (sep :: l) = fields sep l := by
  exact fields_append sep [] l

theorem fields_replicate_append (sep : α) (n : ℕ) (l : List α) :
    fields sep (List.replicate n sep ++ l) = fields sep l := by
  induction n with
  | zero => rfl
  | succ n ih => rw [List.replicate_succ, List.cons_append, fields_cons_sep, ih]

end MiniOs.Fields

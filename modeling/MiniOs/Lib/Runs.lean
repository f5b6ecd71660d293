import Mathlib.Data.List.Basic
import Mathlib.Data.List.TakeWhile

/-!
# Runs between separators

A list in which some entries separate the others falls into the maximal runs
between them. Each run is kept together with the rest of the list behind it, which
is what a pointer to the end of the run points at.

## Main definitions

- `Runs` — the runs of a list, when none of them is empty

## Main results

- `Runs.flatten` — the runs and their separators make up the list
- `Runs.split` — where a run stands
- `IsRun.takeWhile`, `IsRun.dropWhile` — a scan from the start of a run covers it
-/

namespace MiniOs

variable {α : Type*}

/-- The maximal runs of `l` without an entry in `p`, in order, each with what
    follows it in `l`. One entry in `p` stands between two runs, and one may stand
    behind the last. -/
inductive Runs (p : α → Prop) : List α → List (List α × List α) → Prop where
  | nil : Runs p [] []
  | last {g : List α} (hne : g ≠ []) (hg : ∀ x ∈ g, ¬ p x) : Runs p g [(g, [])]
  | cons {g l : List α} {s : α} {rs : List (List α × List α)} (hne : g ≠ [])
      (hg : ∀ x ∈ g, ¬ p x) (hs : p s) (h : Runs p l rs) :
      Runs p (g ++ s :: l) ((g, s :: l) :: rs)

/-- `g` is not empty, holds no separator, and ends at a separator or with the
    list. -/
structure IsRun (p : α → Prop) (g rest : List α) : Prop where
  ne_nil : g ≠ []
  free : ∀ x ∈ g, ¬ p x
  ends : ∀ s ∈ rest.head?, p s

namespace Runs

variable {p : α → Prop} {l g rest : List α} {rs : List (List α × List α)}

theorem flatten (h : Runs p l rs) : rs.flatMap (fun r => r.1 ++ r.2.head?.toList) = l := by
  induction h with
  | nil => rfl
  | last hne hg => simp
  | cons hne hg hs h ih => simp [ih]

theorem isRun (h : Runs p l rs) (hr : (g, rest) ∈ rs) : IsRun p g rest := by
  induction h with
  | nil => cases hr
  | last hne hg =>
    obtain ⟨rfl, rfl⟩ := Prod.mk.inj (List.mem_singleton.mp hr)
    exact ⟨hne, hg, by simp⟩
  | cons hne hg hs h ih =>
    rcases List.mem_cons.mp hr with hr | hr
    · cases hr
      exact ⟨hne, hg, by simpa using hs⟩
    · exact ih hr

theorem split (h : Runs p l rs) (hr : (g, rest) ∈ rs) :
    ∃ pre, l = pre ++ g ++ rest ∧ ∀ s ∈ pre.getLast?, p s := by
  induction h with
  | nil => cases hr
  | last hne hg =>
    obtain ⟨rfl, rfl⟩ := Prod.mk.inj (List.mem_singleton.mp hr)
    exact ⟨[], by simp, by simp⟩
  | @cons g' l s rs hne hg hs h ih =>
    rcases List.mem_cons.mp hr with hr | hr
    · cases hr
      exact ⟨[], by simp, by simp⟩
    · obtain ⟨pre, rfl, hpre⟩ := ih hr
      refine ⟨g' ++ s :: pre, by simp, fun x hx => ?_⟩
      rcases List.eq_nil_or_concat' pre with rfl | ⟨pre, y, rfl⟩
      · obtain rfl : s = x := by simpa using hx
        exact hs
      · have hlast : g' ++ s :: (pre ++ [y]) = g' ++ s :: pre ++ [y] := by simp
        rw [hlast, List.getLast?_concat] at hx
        exact hpre x (by rwa [List.getLast?_concat])

/-- There is one run more than separators, unless the list ends in one. -/
theorem length_eq [DecidablePred p] (h : Runs p l rs) (hne : l ≠ [])
    (hlast : ∀ x ∈ l.getLast?, ¬ p x) : rs.length = l.countP (fun x => p x) + 1 := by
  induction h with
  | nil => exact absurd rfl hne
  | @last g hne hg =>
    have hzero : g.countP (fun x => p x) = 0 := by simpa [List.countP_eq_zero] using hg
    rw [hzero]
    rfl
  | @cons g l s rs hneg hg hs h ih =>
    have hzero : g.countP (fun x => p x) = 0 := by simpa [List.countP_eq_zero] using hg
    have hnel : l ≠ [] := by
      rintro rfl
      exact hlast s (by simp) hs
    have hlast' : ∀ x ∈ l.getLast?, ¬ p x := by
      intro x hx
      refine hlast x ?_
      rw [List.getLast?_append_cons, List.getLast?_cons_of_ne_nil hnel]
      exact hx
    rw [List.length_cons, ih hnel hlast', List.countP_append, hzero, List.countP_cons_of_pos]
    · omega
    · simpa using hs

end Runs

namespace IsRun

variable {p : α → Prop} [DecidablePred p] {g rest : List α}

/-- A scan that starts with a run and stops at a separator covers the run. -/
theorem takeWhile (h : IsRun p g rest) : (g ++ rest).takeWhile (fun x => ¬ p x) = g := by
  rw [List.takeWhile_append_of_pos (by simpa using h.free)]
  cases rest with
  | nil => simp
  | cons s rest =>
    have hs : p s := h.ends s rfl
    simp [hs]

theorem dropWhile (h : IsRun p g rest) : (g ++ rest).dropWhile (fun x => ¬ p x) = rest := by
  rw [List.dropWhile_append_of_pos (by simpa using h.free)]
  cases rest with
  | nil => rfl
  | cons s rest =>
    have hs : p s := h.ends s rfl
    simp [hs]

end IsRun

end MiniOs

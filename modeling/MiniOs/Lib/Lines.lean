import Mathlib.Data.List.Basic

/-!
# Lines

A list is cut behind every occurrence of a separator `nl`. A line keeps its separator,
so the lines of a list concatenate to it; only the last one may lack it.

## Main definitions

- `lines` — the lines of a list
- `complete` — the list with a separator at its end

## Main results

- `flatten_lines` — nothing is lost
- `lines_append_nl`, `lines_of_notMem`, `lines_induction` — line by line from the front
- `lines_append_line` — one line off the back
- `lines_flatten` — terminated lines are what a concatenation of them is cut into
-/

namespace MiniOs.Lines

variable {α : Type*}

/-- Put `a` in front of the first line. -/
def consHead (a : α) : List (List α) → List (List α)
  | [] => [[a]]
  | l :: ls => (a :: l) :: ls

theorem flatten_consHead (a : α) (ls : List (List α)) :
    (consHead a ls).flatten = a :: ls.flatten := by
  cases ls <;> rfl

theorem consHead_append {a : α} {ls ms : List (List α)} (h : ls ≠ []) :
    consHead a (ls ++ ms) = consHead a ls ++ ms := by
  cases ls with
  | nil => exact absurd rfl h
  | cons l ls => rfl

variable [DecidableEq α] (nl : α)

def lines : List α → List (List α)
  | [] => []
  | a :: l => if a = nl then [a] :: lines l else consHead a (lines l)

/-- The list with a separator at its end, unless it is empty. -/
def complete (l : List α) : List α :=
  if l.getLast? = none ∨ l.getLast? = some nl then l else l ++ [nl]

variable {nl} {p l r : List α}

theorem flatten_lines (nl : α) (l : List α) : (lines nl l).flatten = l := by
  induction l with
  | nil => rfl
  | cons a l ih =>
    rw [lines]
    split
    · rw [List.flatten_cons, ih, List.singleton_append]
    · rw [flatten_consHead, ih]

theorem lines_append_nl (hp : nl ∉ p) : lines nl (p ++ nl :: r) = (p ++ [nl]) :: lines nl r := by
  induction p with
  | nil => rw [List.nil_append, lines, if_pos rfl, List.nil_append]
  | cons a p ih =>
    rw [List.mem_cons, not_or] at hp
    rw [List.cons_append, lines, if_neg (Ne.symm hp.1), ih hp.2]
    rfl

theorem lines_of_notMem (hp : nl ∉ p) (hne : p ≠ []) : lines nl p = [p] := by
  induction p with
  | nil => exact absurd rfl hne
  | cons a p ih =>
    rw [List.mem_cons, not_or] at hp
    rw [lines, if_neg (Ne.symm hp.1)]
    cases p with
    | nil => rfl
    | cons b p =>
      rw [ih hp.2 (List.cons_ne_nil b p)]
      rfl

/-- **Induction** over the lines of a list. -/
theorem lines_induction (nl : α) {motive : List α → Prop} (nil : motive [])
    (last : ∀ p, nl ∉ p → p ≠ [] → motive p)
    (line : ∀ p r, nl ∉ p → motive r → motive (p ++ nl :: r)) (l : List α) : motive l := by
  induction hn : l.length using Nat.strongRecOn generalizing l with
  | _ n ih =>
  subst hn
  by_cases hmem : nl ∈ l
  · obtain ⟨p, r, rfl, hp⟩ := List.eq_append_cons_of_mem hmem
    refine line p r hp (ih r.length ?_ r rfl)
    rw [List.length_append, List.length_cons]
    omega
  · by_cases hnil : l = []
    · rw [hnil]
      exact nil
    · exact last l hmem hnil

theorem lines_append (l r : List α) :
    lines nl (l ++ nl :: r) = lines nl (l ++ [nl]) ++ lines nl r := by
  induction l using lines_induction nl with
  | nil =>
    rw [List.nil_append, List.nil_append, lines, lines, if_pos rfl, if_pos rfl]
    rfl
  | last p hp hne =>
    rw [lines_append_nl hp, lines_append_nl hp]
    rfl
  | line p q hp ih =>
    rw [List.append_assoc, List.cons_append, lines_append_nl hp, ih, List.append_assoc,
      List.cons_append, lines_append_nl hp]
    rfl

theorem lines_append_line (hp : nl ∉ p) :
    lines nl (l ++ nl :: (p ++ [nl])) = lines nl (l ++ [nl]) ++ [p ++ [nl]] := by
  rw [lines_append, lines_append_nl hp]
  rfl

theorem lines_singleton (hp : nl ∉ p) : lines nl (p ++ [nl]) = [p ++ [nl]] := by
  rw [lines_append_nl hp]
  rfl

/-- Terminated lines are found again in their concatenation. -/
theorem lines_flatten {ls : List (List α)} (h : ∀ l ∈ ls, ∃ p, nl ∉ p ∧ l = p ++ [nl]) :
    lines nl ls.flatten = ls := by
  induction ls with
  | nil => rfl
  | cons l ls ih =>
    rw [List.forall_mem_cons] at h
    obtain ⟨⟨p, hp, rfl⟩, hls⟩ := h
    rw [List.flatten_cons, List.append_assoc, List.singleton_append, lines_append_nl hp, ih hls]

theorem terminated_of_mem_lines {x : List α} (h : x ∈ lines nl (l ++ [nl])) :
    ∃ p, nl ∉ p ∧ x = p ++ [nl] := by
  induction l using lines_induction nl with
  | nil =>
    have hx : x = [nl] := by
      rw [List.nil_append, lines, if_pos rfl] at h
      exact List.mem_singleton.mp h
    exact ⟨[], List.not_mem_nil, hx⟩
  | last p hp hne =>
    rw [lines_singleton hp] at h
    exact ⟨p, hp, List.mem_singleton.mp h⟩
  | line p r hp ih =>
    rw [List.append_assoc, List.cons_append, lines_append_nl hp] at h
    rcases List.mem_cons.mp h with rfl | h
    · exact ⟨p, hp, rfl⟩
    · exact ih h

theorem complete_append_nl (l : List α) : complete nl (l ++ [nl]) = l ++ [nl] := by
  rw [complete, List.getLast?_concat]
  exact if_pos (.inr rfl)

theorem complete_of_notMem (hp : nl ∉ p) (hne : p ≠ []) : complete nl p = p ++ [nl] := by
  refine if_neg ?_
  rintro (h | h)
  · exact hne (List.getLast?_eq_none_iff.mp h)
  · exact hp (List.mem_of_getLast? h)

theorem complete_append_cons (p r : List α) :
    complete nl (p ++ nl :: r) = p ++ nl :: complete nl r := by
  obtain rfl | ⟨q, a, rfl⟩ := List.eq_nil_or_concat' r
  · exact complete_append_nl p
  · have hcons : p ++ nl :: (q ++ [a]) = (p ++ nl :: q) ++ [a] := by simp
    rw [hcons, complete, complete, List.getLast?_concat, List.getLast?_concat]
    split <;> simp

theorem lines_complete (nl : α) (l : List α) :
    lines nl (complete nl l) = (lines nl l).map (complete nl) := by
  induction l using lines_induction nl with
  | nil => rfl
  | last p hp hne =>
    rw [complete_of_notMem hp hne, lines_singleton hp, lines_of_notMem hp hne, List.map_singleton,
      complete_of_notMem hp hne]
  | line p r hp ih =>
    rw [complete_append_cons, lines_append_nl hp, ih, lines_append_nl hp, List.map_cons,
      complete_append_nl]

theorem mem_of_mem_lines {a : α} {x : List α} (hx : x ∈ lines nl l) (ha : a ∈ x) : a ∈ l := by
  rw [← flatten_lines nl l]
  exact List.mem_flatten_of_mem hx ha

theorem complete_cases (nl : α) (l : List α) :
    l = [] ∧ complete nl l = [] ∨ ∃ q, complete nl l = q ++ [nl] ∧ (l = q ∨ l = q ++ [nl]) := by
  rcases List.eq_nil_or_concat' l with rfl | ⟨q, a, rfl⟩
  · exact .inl ⟨rfl, rfl⟩
  · by_cases ha : a = nl
    · subst ha
      exact .inr ⟨q, complete_append_nl q, .inr rfl⟩
    · refine .inr ⟨q ++ [a], ?_, .inl rfl⟩
      rw [complete, List.getLast?_concat]
      refine if_neg ?_
      rintro (h | h)
      · cases h
      · exact ha (Option.some.inj h)

end MiniOs.Lines

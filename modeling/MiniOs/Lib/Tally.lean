import Mathlib.Data.List.Nodup

/-!
# Tables with one row for each key

A table that is filled while events arrive: the row of a key is created at the end of the
table when the key is first seen, and changed in place afterwards. A reader of the events
also compares each event with the one before.

## Main definitions

- `upsert` — change the row of a key, or add it
- `steps` — the pairs of consecutive elements

## Main results

- `upsert_eq_modify`, `upsert_eq_append` — the two cases, as an implementation has them
- `map_upsert`, `mem_upsert` — the keys and the rows afterwards
- `steps_concat` — one element more is one pair more
-/

namespace MiniOs.Tally

variable {κ ρ : Type*} [DecidableEq κ] (key : ρ → κ)

/-- The row of `k` is changed by `f`; if there is none, `fresh` is changed and added. -/
def upsert (k : κ) (fresh : ρ) (f : ρ → ρ) (rows : List ρ) : List ρ :=
  if k ∈ rows.map key then rows.map (fun r => if key r = k then f r else r)
  else rows ++ [f fresh]

variable {key} {k : κ} {fresh : ρ} {f : ρ → ρ} {rows : List ρ}

theorem map_eq_modify (hrows : (rows.map key).Nodup) {i : ℕ}
    (hi : rows.findIdx? (fun r => key r = k) = some i) :
    rows.map (fun r => if key r = k then f r else r) = rows.modify i f := by
  induction rows generalizing i with
  | nil => cases hi
  | cons r rows ih =>
    rw [List.map_cons, List.nodup_cons] at hrows
    rw [List.findIdx?_cons] at hi
    by_cases hr : key r = k
    · rw [decide_eq_true hr] at hi
      cases hi
      have hrest : rows.map (fun r => if key r = k then f r else r) = rows := by
        refine (List.map_congr_left fun x hx => ?_).trans (List.map_id rows)
        refine if_neg fun hkey => hrows.1 ?_
        rw [hr, ← hkey]
        exact List.mem_map_of_mem hx
      rw [List.map_cons, if_pos hr, hrest]
      rfl
    · rw [decide_eq_false hr] at hi
      obtain ⟨j, hj, rfl⟩ := Option.map_eq_some_iff.mp hi
      rw [List.map_cons, if_neg hr, ih hrows.2 hj]
      rfl

theorem upsert_eq_modify (hrows : (rows.map key).Nodup) {i : ℕ}
    (hi : rows.findIdx? (fun r => key r = k) = some i) :
    upsert key k fresh f rows = rows.modify i f := by
  have hmem : k ∈ rows.map key := by
    obtain ⟨hlt, hkey, -⟩ := List.findIdx?_eq_some_iff_getElem.mp hi
    exact List.mem_map.mpr ⟨rows[i], List.getElem_mem hlt, of_decide_eq_true hkey⟩
  rw [upsert, if_pos hmem, map_eq_modify hrows hi]

theorem notMem_of_findIdx? (hi : rows.findIdx? (fun r => key r = k) = none) :
    k ∉ rows.map key := by
  intro hmem
  obtain ⟨r, hr, hkey⟩ := List.mem_map.mp hmem
  have hno := List.findIdx?_eq_none_iff.mp hi r hr
  exact of_decide_eq_false hno hkey

theorem upsert_eq_append (hi : rows.findIdx? (fun r => key r = k) = none) :
    upsert key k fresh f rows = rows ++ [f fresh] := if_neg (notMem_of_findIdx? hi)

/-- A column that the change does not touch, such as the keys. -/
theorem map_upsert {γ : Type*} {g : ρ → γ} (hg : ∀ r, g (f r) = g r) :
    (upsert key k fresh f rows).map g =
      if k ∈ rows.map key then rows.map g else rows.map g ++ [g fresh] := by
  unfold upsert
  split
  · rw [List.map_map]
    refine List.map_congr_left fun r _ => ?_
    show g (if key r = k then f r else r) = g r
    split
    · exact hg r
    · rfl
  · rw [List.map_append, List.map_singleton, hg]

/-- A row afterwards: the changed row of the key, or an old row of another. -/
theorem mem_upsert {r : ρ} (hr : r ∈ upsert key k fresh f rows) :
    (∃ r₀, r = f r₀ ∧ (r₀ ∈ rows ∧ key r₀ = k ∨ k ∉ rows.map key ∧ r₀ = fresh)) ∨
    key r ≠ k ∧ r ∈ rows := by
  unfold upsert at hr
  split at hr
  · obtain ⟨r₀, hmem, rfl⟩ := List.mem_map.mp hr
    by_cases hkey : key r₀ = k
    · rw [if_pos hkey]
      exact .inl ⟨r₀, rfl, .inl ⟨hmem, hkey⟩⟩
    · rw [if_neg hkey]
      exact .inr ⟨hkey, hmem⟩
  · next hnot =>
    rcases List.mem_append.mp hr with hmem | hmem
    · exact .inr ⟨fun hkey => hnot (hkey ▸ List.mem_map_of_mem hmem), hmem⟩
    · cases List.mem_singleton.mp hmem
      exact .inl ⟨fresh, rfl, .inr ⟨hnot, rfl⟩⟩

variable {α : Type*}

/-- The pairs of consecutive elements. -/
def steps (l : List α) : List (α × α) := l.zip l.tail

theorem steps_concat (l : List α) (a : α) :
    steps (l ++ [a]) = steps l ++ l.getLast?.toList.map (fun b => (b, a)) := by
  induction l with
  | nil => rfl
  | cons x l ih =>
    cases l with
    | nil => rfl
    | cons y l =>
      have hcons : steps (x :: y :: l ++ [a]) = (x, y) :: steps (y :: l ++ [a]) := rfl
      rw [hcons, ih, List.getLast?_cons_cons]
      rfl

end MiniOs.Tally

import Mathlib.Data.List.MinMax

/-!
# Loops over a table

A `for` loop over the entries of a table is a left fold over their indices. Three
shapes of body recur: one writes only the entry it visits, one keeps the best entry
seen so far in an accumulator, and one moves the entries it keeps to the front.

## Main results

- `foldl_get` — what a visit does to its entry, the loop does to every entry
- `foldl_best` — a loop that keeps the best candidate computes `List.argmin`
- `le_of_mem_argmin_of_pairwise` — which is the first of the best
- `compact_eq_filter` — moving entries down in place is a filter
-/

namespace MiniOs.Loop

variable {σ ι α : Type*}

section Visit

variable {g : σ → ι → α} {f : σ → ι → σ}

theorem foldl_get_of_notMem (hother : ∀ s i x, x ≠ i → g (f s i) x = g s x)
    {x : ι} {l : List ι} (hx : x ∉ l) (s : σ) : g (l.foldl f s) x = g s x := by
  induction l generalizing s with
  | nil => rfl
  | cons i l ih =>
    rw [List.mem_cons, not_or] at hx
    rw [List.foldl_cons, ih hx.2, hother s i x hx.1]

/-- **Frame rule of a table loop**: the body relates the old and the new value of
    the entry it visits by `R` and writes no other entry, so the loop relates
    them for every entry. -/
theorem foldl_get {R : ι → α → α → Prop} (hself : ∀ s i, R i (g s i) (g (f s i) i))
    (hother : ∀ s i x, x ≠ i → g (f s i) x = g s x) {x : ι} {l : List ι}
    (hl : l.Nodup) (hx : x ∈ l) (s : σ) : R x (g s x) (g (l.foldl f s) x) := by
  induction l generalizing s with
  | nil => cases hx
  | cons i l ih =>
    rw [List.nodup_cons] at hl
    rw [List.foldl_cons]
    by_cases hxi : x = i
    · subst hxi
      rw [foldl_get_of_notMem hother hl.1]
      exact hself s x
    · rw [List.mem_cons, or_iff_right hxi] at hx
      rw [← hother s i x hxi]
      exact ih hl.2 hx (f s i)

end Visit

/-- A loop that remembers the candidate with the least key, replacing it only by
    a strictly better one, computes `argmin` over the candidates. `I` ties what
    else the accumulator holds to the candidate. -/
theorem foldl_best {β : Type*} [Preorder β] [DecidableLT β] {key : ι → β} {cand : ι → Bool}
    {o : σ → Option ι} {visit : σ → ι → σ} {I : σ → Prop}
    (hI : ∀ s i, I s → I (visit s i))
    (hvisit : ∀ s i, I s → o (visit s i) =
      if cand i then List.argAux (fun a c => key a < key c) (o s) i else o s)
    {s : σ} (hs : I s) (hnone : o s = none) (l : List ι) :
    o (l.foldl visit s) = (l.filter cand).argmin key := by
  rw [List.argmin, ← hnone]
  clear hnone
  induction l generalizing s with
  | nil => rfl
  | cons i l ih =>
    rw [List.foldl_cons, ih (hI s i hs), hvisit s i hs, List.filter_cons]
    split <;> rfl

/-- Over increasing candidates, `argmin` is the first of the best. -/
theorem le_of_mem_argmin_of_pairwise {β : Type*} [LinearOrder ι] [LinearOrder β] {key : ι → β}
    {l : List ι} (hl : l.Pairwise (· < ·)) {m a : ι} (hm : m ∈ l.argmin key) (ha : a ∈ l)
    (hkey : key a ≤ key m) : m ≤ a := by
  obtain ⟨hmem, -, hfirst⟩ := List.mem_argmin_iff.mp hm
  have hmlt := List.idxOf_lt_length_of_mem hmem
  have halt := List.idxOf_lt_length_of_mem ha
  have hmget : l[l.idxOf m] = m := List.getElem_idxOf hmlt
  have haget : l[l.idxOf a] = a := List.getElem_idxOf halt
  rcases (hfirst a ha hkey).lt_or_eq with hlt | heq
  · have hless := List.pairwise_iff_getElem.mp hl _ _ hmlt halt hlt
    rw [hmget, haget] at hless
    exact hless.le
  · rw [← hmget, ← haget]
    simp only [heq, le_refl]

section Compact

variable (keep : α → Bool)

/-- One round of a compaction: entry `read` is moved down to `write`, or passed over. -/
def compactVisit (s : List α × ℕ) (read : ℕ) : List α × ℕ :=
  match s.1[read]? with
  | some a => if keep a then (s.1.set s.2 a, s.2 + 1) else s
  | none => s

/-- `for (read = 0; read < n; read++) if (keep(a[read])) a[write++] = a[read];`, and the
    entries below `write` at its end. -/
def compact (l : List α) : List α :=
  let s := (List.range l.length).foldl (compactVisit keep) (l, 0)
  s.1.take s.2

/-- Where a compaction stands after `r` rounds. -/
structure Compacting (l : List α) (r : ℕ) (s : List α × ℕ) : Prop where
  length : s.1.length = l.length
  write_le : s.2 ≤ r
  kept : s.1.take s.2 = (l.take r).filter keep
  unread : s.1.drop r = l.drop r

variable {keep}

theorem Compacting.visit {l : List α} {r : ℕ} {s : List α × ℕ} (h : Compacting keep l r s)
    (hr : r < l.length) : Compacting keep l (r + 1) (compactVisit keep s r) := by
  obtain ⟨a, w⟩ := s
  obtain ⟨hlen, hw, hkept, hunread⟩ := h
  dsimp only at hlen hw hkept hunread
  have hget : a[r]? = l[r]? := by
    have := congrArg (fun l => l[0]?) hunread
    simpa using this
  have htail : a.drop (r + 1) = l.drop (r + 1) := by
    rw [← List.drop_drop, ← List.drop_drop, hunread]
  have htake : (l.take (r + 1)).filter keep = (l.take r).filter keep ++ [l[r]].filter keep := by
    rw [List.take_succ_eq_append_getElem hr, List.filter_append]
  rw [compactVisit, hget, List.getElem?_eq_getElem hr]
  dsimp only
  by_cases hk : keep l[r] = true
  · rw [if_pos hk]
    refine ⟨?_, Nat.succ_le_succ hw, ?_, ?_⟩
    · rw [List.length_set, hlen]
    · have hwlen : w < a.length := by omega
      have hset : w < (a.set w l[r]).length := by
        rw [List.length_set]
        exact hwlen
      rw [htake, List.filter_cons_of_pos hk, List.filter_nil, ← hkept]
      show (a.set w l[r]).take (w + 1) = _
      rw [List.take_succ_eq_append_getElem hset, List.getElem_set_self, List.take_set_of_le le_rfl]
    · rw [List.drop_set_of_lt (by omega), htail]
  · rw [if_neg hk]
    refine ⟨hlen, Nat.le_succ_of_le hw, ?_, htail⟩
    rw [htake, List.filter_cons_of_neg hk, List.filter_nil, List.append_nil, hkept]

/-- **An in-place compaction is a filter.** -/
theorem compact_eq_filter (keep : α → Bool) (l : List α) : compact keep l = l.filter keep := by
  have hrounds : ∀ r ≤ l.length,
      Compacting keep l r ((List.range r).foldl (compactVisit keep) (l, 0)) := by
    intro r hr
    induction r with
    | zero => exact ⟨rfl, le_rfl, rfl, rfl⟩
    | succ r ih =>
      rw [List.range_succ, List.foldl_append]
      exact (ih (Nat.le_of_succ_le hr)).visit hr
  have hend := (hrounds l.length le_rfl).kept
  rw [List.take_length] at hend
  exact hend

end Compact

end MiniOs.Loop

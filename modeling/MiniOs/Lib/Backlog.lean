import Mathlib.Data.List.Forall2

/-!
# Claims on a queue

A keyed queue serves claims: an entry `(k, u)` that reaches the front takes away the
first claim with key `k`, whoever it was meant for. A claim is a predicate on the
identities `u` that would satisfy it. It is *covered* if some such identity is still
to come, or its entry is in the queue at the position of the claim or behind it, so
that the claim has not been passed over by the time that entry is served.

## Main definitions

- `valuesOf` — the claims, or the entries, with one key
- `Backed` — every claim has an identity that is still to come or far enough behind
- `Yields` — claims are dropped or weakened
- `Covered` — the claims with each key are backed, and no more than the entries in the
  queue and the `slack` identities to come

## Main results

- `Covered.weaken`, `Covered.arrive`, `Covered.serve`, `Covered.claim`,
  `Covered.release`, `Covered.overtake` — what the operations on the queue and on the
  claims keep
- `Covered.exists_identity` — every claim has an identity that is not gone
-/

namespace MiniOs.Backlog

variable {κ ι : Type*}

/-- `ok u` says that `u` is still to come. The claim at position `i` has an identity
    that is, or that stands in the queue at `i` or later. -/
def Backed (ok : ι → Prop) : List (ι → Prop) → List ι → Prop
  | [], _ => True
  | A :: rest, b => (∃ u, A u ∧ (ok u ∨ u ∈ b)) ∧ Backed ok rest b.tail

namespace Backed

variable {ok ok' : ι → Prop} {cl cl' : List (ι → Prop)} {b : List ι} {u : ι}

theorem of_tail (h : Backed ok cl b.tail) : Backed ok cl b := by
  induction cl generalizing b with
  | nil => trivial
  | cons A rest ih =>
    obtain ⟨⟨v, hv, hok⟩, hrest⟩ := h
    exact ⟨⟨v, hv, hok.imp_right List.mem_of_mem_tail⟩, ih hrest⟩

theorem weaken (h : Backed ok cl b) (hok : ∀ v, ok v → ok' v)
    (hcl : List.SublistForall₂ (fun B A => ∀ v, A v → B v) cl' cl) : Backed ok' cl' b := by
  induction hcl generalizing b with
  | nil => trivial
  | cons hAB _ ih =>
    obtain ⟨⟨v, hv, hwhere⟩, hrest⟩ := h
    exact ⟨⟨v, hAB v hv, hwhere.imp_left (hok v)⟩, ih hrest⟩
  | cons_right _ ih => exact of_tail (ih h.2)

theorem arrive (h : Backed ok cl b) (hok : ∀ v, ok v → ok' v ∨ v = u)
    (hlen : cl.length ≤ b.length + 1) : Backed ok' cl (b ++ [u]) := by
  induction cl generalizing b with
  | nil => trivial
  | cons A rest ih =>
    obtain ⟨⟨v, hv, hwhere⟩, hrest⟩ := h
    constructor
    · refine ⟨v, hv, ?_⟩
      rcases hwhere with hv | hv
      · rcases hok v hv with hv | rfl
        · exact .inl hv
        · exact .inr (List.mem_append_right _ (List.mem_singleton.mpr rfl))
      · exact .inr (List.mem_append_left _ hv)
    · cases b with
      | nil =>
        rw [List.length_cons] at hlen
        have hnil : rest = [] :=
          List.length_eq_zero_iff.mp (Nat.le_zero.mp (Nat.le_of_succ_le_succ hlen))
        rw [hnil]
        trivial
      | cons x b =>
        rw [List.cons_append, List.tail_cons]
        exact ih hrest (Nat.le_of_succ_le_succ hlen)

theorem append (h : Backed ok cl b) (hcl : ∀ A ∈ cl', ∃ v, A v ∧ ok v) :
    Backed ok (cl ++ cl') b := by
  induction cl generalizing b with
  | nil =>
    rw [List.nil_append]
    clear h
    induction cl' generalizing b with
    | nil => trivial
    | cons A rest ih =>
      obtain ⟨v, hv, hok⟩ := hcl A List.mem_cons_self
      exact ⟨⟨v, hv, .inl hok⟩, ih (fun B hB => hcl B (List.mem_cons_of_mem A hB))⟩
  | cons A rest ih => exact ⟨h.1, ih h.2⟩

theorem exists_of_mem (h : Backed ok cl b) {A : ι → Prop} (hA : A ∈ cl) :
    ∃ v, A v ∧ (ok v ∨ v ∈ b) := by
  induction cl generalizing b with
  | nil => cases hA
  | cons B rest ih =>
    rcases List.mem_cons.mp hA with rfl | hA
    · exact h.1
    · obtain ⟨v, hv, hwhere⟩ := ih h.2 hA
      exact ⟨v, hv, hwhere.imp_right List.mem_of_mem_tail⟩

end Backed

/-! ### Keys -/

section Keyed

variable {α β : Type*} [DecidableEq κ] {j k : κ}

/-- The values with key `k`, in order. -/
def valuesOf (k : κ) (l : List (κ × α)) : List α := (l.filter (·.1 = k)).map Prod.snd

theorem valuesOf_append (k : κ) (l m : List (κ × α)) :
    valuesOf k (l ++ m) = valuesOf k l ++ valuesOf k m := by
  rw [valuesOf, List.filter_append, List.map_append]
  rfl

theorem valuesOf_cons_self (k : κ) (a : α) (l : List (κ × α)) :
    valuesOf k ((k, a) :: l) = a :: valuesOf k l := by
  rw [valuesOf, List.filter_cons_of_pos (by simp)]
  rfl

theorem valuesOf_cons_of_ne {p : κ × α} (h : p.1 ≠ k) (l : List (κ × α)) :
    valuesOf k (p :: l) = valuesOf k l := by
  rw [valuesOf, List.filter_cons_of_neg (by simpa using h)]
  rfl

theorem mem_valuesOf {a : α} {l : List (κ × α)} : a ∈ valuesOf k l ↔ (k, a) ∈ l := by
  rw [valuesOf, List.mem_map]
  constructor
  · rintro ⟨⟨k', a'⟩, hmem, rfl⟩
    obtain ⟨hl, hk⟩ := List.mem_filter.mp hmem
    rw [← of_decide_eq_true hk]
    exact hl
  · intro hmem
    exact ⟨(k, a), List.mem_filter.mpr ⟨hmem, decide_eq_true rfl⟩, rfl⟩

theorem valuesOf_eraseP_self (k : κ) (l : List (κ × α)) :
    valuesOf k (l.eraseP (·.1 = k)) = (valuesOf k l).tail := by
  induction l with
  | nil => rfl
  | cons p l ih =>
    by_cases hp : p.1 = k
    · subst hp
      rw [List.eraseP_cons_of_pos (by simp), valuesOf_cons_self, List.tail_cons]
    · rw [List.eraseP_cons_of_neg (by simpa using hp), valuesOf_cons_of_ne hp,
        valuesOf_cons_of_ne hp, ih]

theorem valuesOf_eraseP_of_ne (h : j ≠ k) (l : List (κ × α)) :
    valuesOf j (l.eraseP (·.1 = k)) = valuesOf j l := by
  induction l with
  | nil => rfl
  | cons p l ih =>
    by_cases hp : p.1 = k
    · rw [List.eraseP_cons_of_pos (by simpa using hp), valuesOf_cons_of_ne (hp ▸ Ne.symm h)]
    · rw [List.eraseP_cons_of_neg (by simpa using hp)]
      by_cases hj : p.1 = j
      · subst hj
        rw [valuesOf_cons_self, valuesOf_cons_self, ih]
      · rw [valuesOf_cons_of_ne hj, valuesOf_cons_of_ne hj, ih]

theorem valuesOf_sublistForall₂ {R : α → β → Prop} {l : List (κ × α)} {m : List (κ × β)}
    (h : List.SublistForall₂ (fun p q => p.1 = q.1 ∧ R p.2 q.2) l m) (k : κ) :
    List.SublistForall₂ R (valuesOf k l) (valuesOf k m) := by
  induction h with
  | nil => exact .nil
  | @cons p q _ _ hpq _ ih =>
    by_cases hk : q.1 = k
    · subst hk
      obtain ⟨hkey, hR⟩ := hpq
      obtain ⟨pk, pa⟩ := p
      cases hkey
      rw [valuesOf_cons_self, valuesOf_cons_self]
      exact .cons hR ih
    · rw [valuesOf_cons_of_ne hk, valuesOf_cons_of_ne (hpq.1 ▸ hk)]
      exact ih
  | @cons_right q _ _ _ ih =>
    by_cases hk : q.1 = k
    · subst hk
      rw [valuesOf_cons_self]
      exact .cons_right ih
    · rw [valuesOf_cons_of_ne hk]
      exact ih

end Keyed

/-! ### Covered claims -/

/-- `cl'` is what is left of the claims `cl`: some have been dropped, and the others ask
    for no more. -/
def Yields (cl' cl : List (κ × (ι → Prop))) : Prop :=
  List.SublistForall₂ (fun c' c => c'.1 = c.1 ∧ ∀ u, c.2 u → c'.2 u) cl' cl

theorem Yields.refl (cl : List (κ × (ι → Prop))) : Yields cl cl := by
  induction cl with
  | nil => exact .nil
  | cons c cl ih => exact .cons ⟨rfl, fun _ hu => hu⟩ ih

theorem Yields.of_sublist {cl' cl : List (κ × (ι → Prop))} (h : cl'.Sublist cl) :
    Yields cl' cl := by
  induction h with
  | slnil => exact .nil
  | cons c _ ih => exact .cons_right ih
  | cons_cons c _ ih => exact .cons ⟨rfl, fun _ hu => hu⟩ ih

theorem Yields.append {cl₁' cl₁ cl₂' cl₂ : List (κ × (ι → Prop))} (h₁ : Yields cl₁' cl₁)
    (h₂ : Yields cl₂' cl₂) : Yields (cl₁' ++ cl₂') (cl₁ ++ cl₂) := by
  induction h₁ with
  | @nil l =>
    rw [List.nil_append]
    induction l with
    | nil => exact h₂
    | cons c l ih => exact .cons_right ih
  | cons hc _ ih => exact .cons hc ih
  | cons_right _ ih => exact .cons_right ih

variable [DecidableEq κ]

theorem Yields.valuesOf {cl' cl : List (κ × (ι → Prop))} (h : Yields cl' cl) (k : κ) :
    List.SublistForall₂ (fun B A => ∀ u, A u → B u) (valuesOf k cl') (valuesOf k cl) :=
  valuesOf_sublistForall₂ (R := fun B A : ι → Prop => ∀ u, A u → B u) h k

/-- The claims `cl` on the queue `q`, where `ok k u` says that `u` is still to come with
    key `k`, and at most `slack k` of these have a claim. -/
structure Covered (ok : κ → ι → Prop) (cl : List (κ × (ι → Prop))) (q : List (κ × ι))
    (slack : κ → ℕ) : Prop where
  backed : ∀ k, Backed (ok k) (valuesOf k cl) (valuesOf k q)
  count : ∀ k, (valuesOf k cl).length ≤ (valuesOf k q).length + slack k

namespace Covered

variable {ok ok' : κ → ι → Prop} {cl cl' : List (κ × (ι → Prop))} {q : List (κ × ι)}
  {slack slack' : κ → ℕ} {k : κ} {u : ι}

theorem weaken (h : Covered ok cl q slack) (hcl : Yields cl' cl) (hok : ∀ j v, ok j v → ok' j v)
    (hslack : ∀ j, slack j ≤ slack' j) : Covered ok' cl' q slack' := by
  constructor
  · intro j
    exact (h.backed j).weaken (hok j) (hcl.valuesOf j)
  · intro j
    obtain ⟨l, hforall, hsub⟩ := List.sublistForall₂_iff.mp (hcl.valuesOf j)
    have hle : (valuesOf j cl').length ≤ (valuesOf j cl).length :=
      hforall.length_eq ▸ hsub.length_le
    have hcount := h.count j
    have hs := hslack j
    omega

theorem arrive (h : Covered ok cl q slack) (hok : ∀ j v, ok j v → ok' j v ∨ j = k ∧ v = u)
    (hk : slack k ≤ 1) (hslack : ∀ j, j ≠ k → slack j ≤ slack' j) :
    Covered ok' cl (q ++ [(k, u)]) slack' := by
  constructor
  · intro j
    rw [valuesOf_append]
    by_cases hj : j = k
    · subst hj
      rw [valuesOf_cons_self]
      refine (h.backed j).arrive (fun v hv => (hok j v hv).imp_right And.right) ?_
      have hcount := h.count j
      omega
    · rw [valuesOf_cons_of_ne (Ne.symm hj)]
      show Backed _ _ (_ ++ [])
      rw [List.append_nil]
      refine (h.backed j).weaken (fun v hv => (hok j v hv).resolve_right (fun e => hj e.1)) ?_
      exact (Yields.refl cl).valuesOf j
  · intro j
    have hcount := h.count j
    rw [valuesOf_append, List.length_append]
    by_cases hj : j = k
    · subst hj
      rw [valuesOf_cons_self, List.length_cons]
      omega
    · have hs := hslack j hj
      omega

theorem serve (h : Covered ok cl ((k, u) :: q) slack) :
    Covered ok (cl.eraseP (·.1 = k)) q slack := by
  constructor
  · intro j
    have hback := h.backed j
    by_cases hj : j = k
    · subst hj
      rw [valuesOf_cons_self] at hback
      rw [valuesOf_eraseP_self]
      cases hcl : valuesOf j cl with
      | nil => trivial
      | cons A rest =>
        rw [hcl] at hback
        exact hback.2
    · rw [valuesOf_cons_of_ne (Ne.symm hj)] at hback
      rw [valuesOf_eraseP_of_ne hj]
      exact hback
  · intro j
    have hcount := h.count j
    by_cases hj : j = k
    · subst hj
      rw [valuesOf_cons_self, List.length_cons] at hcount
      rw [valuesOf_eraseP_self, List.length_tail]
      omega
    · rw [valuesOf_cons_of_ne (Ne.symm hj)] at hcount
      rw [valuesOf_eraseP_of_ne hj]
      exact hcount

theorem claim (h : Covered ok cl q slack) {A : ι → Prop} (hA : A u) (hok : ∀ j v, ok j v → ok' j v)
    (hu : ok' k u) (hk : slack k + 1 ≤ slack' k) (hslack : ∀ j, j ≠ k → slack j ≤ slack' j) :
    Covered ok' (cl ++ [(k, A)]) q slack' := by
  constructor
  · intro j
    have hback : Backed (ok' j) (valuesOf j cl) (valuesOf j q) :=
      (h.backed j).weaken (hok j) ((Yields.refl cl).valuesOf j)
    rw [valuesOf_append]
    refine hback.append ?_
    intro B hB
    rw [mem_valuesOf, List.mem_singleton] at hB
    cases hB
    exact ⟨u, hA, hu⟩
  · intro j
    have hcount := h.count j
    rw [valuesOf_append, List.length_append]
    by_cases hj : j = k
    · subst hj
      rw [valuesOf_cons_self, List.length_cons]
      show _ + (0 + 1) ≤ _
      omega
    · have hs := hslack j hj
      rw [valuesOf_cons_of_ne (Ne.symm hj)]
      show _ + 0 ≤ _
      omega

/-- An identity with key `k` leaves another way, and a claim with it. -/
theorem release (h : Covered ok cl q slack) (hcl : Yields cl' cl)
    (hfewer : (valuesOf k cl').length ≤ (valuesOf k cl).length - 1)
    (hok : ∀ j v, ok j v → ok' j v) (hk : slack k ≤ 1)
    (hslack : ∀ j, j ≠ k → slack j ≤ slack' j) : Covered ok' cl' q slack' := by
  have hweak : Covered ok' cl' q (fun j => if j = k then slack k else slack' j) := by
    refine h.weaken hcl hok (fun j => ?_)
    by_cases hj : j = k
    · subst hj
      exact Nat.le_of_eq (if_pos rfl).symm
    · rw [if_neg hj]
      exact hslack j hj
  refine ⟨hweak.backed, fun j => ?_⟩
  by_cases hj : j = k
  · subst hj
    have hcount := h.count j
    omega
  · have hcount := hweak.count j
    rw [if_neg hj] at hcount
    exact hcount

/-- An identity with key `k` is served at once, while none with its key is queued. -/
theorem overtake (h : Covered ok cl q slack) (hq : valuesOf k q = []) (hk : slack k ≤ 1)
    (hok : ∀ j, j ≠ k → ∀ v, ok j v → ok' j v) (hslack : ∀ j, j ≠ k → slack j ≤ slack' j) :
    Covered ok' (cl.eraseP (·.1 = k)) q slack' := by
  have hnil : valuesOf k (cl.eraseP (·.1 = k)) = [] := by
    have hcount := h.count k
    rw [hq, List.length_nil] at hcount
    rw [valuesOf_eraseP_self, ← List.length_eq_zero_iff, List.length_tail]
    omega
  constructor
  · intro j
    by_cases hj : j = k
    · subst hj
      rw [hnil]
      trivial
    · rw [valuesOf_eraseP_of_ne hj]
      exact (h.backed j).weaken (hok j hj) ((Yields.refl cl).valuesOf j)
  · intro j
    by_cases hj : j = k
    · subst hj
      rw [hnil]
      exact Nat.zero_le _
    · have hcount := h.count j
      have hs := hslack j hj
      rw [valuesOf_eraseP_of_ne hj]
      omega

/-- Every claim has an identity that is still to come or in the queue. -/
theorem exists_identity (h : Covered ok cl q slack) {A : ι → Prop} (hA : (k, A) ∈ cl) :
    ∃ u, A u ∧ (ok k u ∨ (k, u) ∈ q) := by
  obtain ⟨u, hu, hwhere⟩ := (h.backed k).exists_of_mem (mem_valuesOf.mpr hA)
  exact ⟨u, hu, hwhere.imp_right mem_valuesOf.mp⟩

end Covered

end MiniOs.Backlog

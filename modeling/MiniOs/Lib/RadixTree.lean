import Mathlib.Algebra.BigOperators.Fin
import Mathlib.Algebra.BigOperators.Group.Finset.Piecewise
import Mathlib.Data.List.FinRange

/-!
# Radix trees with labelled nodes

Trees of a fixed height whose nodes have `B` entries. A key is a number, and its digits in base
`B`, the most significant one first, are the way from the root to a leaf. Every node has a label,
and an insertion takes the labels of the nodes that it adds from a list.

## Main definitions

- `Tree`, `get` — trees, and the leaf of a key
- `insert` — adds a leaf, and the nodes on the way to it
- `erase`, `modify` — removes or changes a leaf, and no node
- `labels` — how often a label is used
- `release` — the labels of a tree that has no leaf

## Main results

- `get_insert_done`, `get_insert_full`, `get_erase`, `get_modify` — what the operations do to the
  leaves
- `labels_insert`, `insert_free_suffix`, `labels_erase`, `labels_modify` — no label is lost
- `release_of_get` — a tree without leaves can be released
-/

namespace MiniOs.RadixTree

/-- Trees of height `n`: nothing, a leaf, or a node with `B` entries. -/
inductive Tree (B : ℕ) (ι α : Type*) : ℕ → Type _ where
  | empty {n : ℕ} : Tree B ι α n
  | leaf (a : α) : Tree B ι α 0
  | node {n : ℕ} (label : ι) (entry : Fin B → Tree B ι α n) : Tree B ι α (n + 1)

/-- How an insertion ends: there may be no label left, or the key may be in use. -/
inductive Outcome where
  | done
  | full
  | taken
  deriving DecidableEq

variable {B : ℕ} {ι α : Type*}

section Operations

variable [NeZero B]

/-- The digit of key `k` that a node above trees of height `n` looks at. -/
def index (B : ℕ) [NeZero B] (n k : ℕ) : Fin B :=
  Fin.ofNat B (k / B ^ n)

def get : {n : ℕ} → Tree B ι α n → ℕ → Option α
  | _, .empty, _ => none
  | _, .leaf a, _ => some a
  | n + 1, .node _ entry, k => get (entry (index B n k)) k

/-- Adds leaf `a` at key `k`. The nodes that are missing on the way take their labels from
    `free`; they stay if there are not enough of them. -/
def insert : (n : ℕ) → List ι → Tree B ι α n → ℕ → α → List ι × Tree B ι α n × Outcome
  | 0, free, .empty, _, a => (free, .leaf a, .done)
  | 0, free, .leaf b, _, _ => (free, .leaf b, .taken)
  | n + 1, free, .node l entry, k, a =>
    let r := insert n free (entry (index B n k)) k a
    (r.1, .node l (Function.update entry (index B n k) r.2.1), r.2.2)
  | _ + 1, [], .empty, _, _ => ([], .empty, .full)
  | n + 1, l :: free, .empty, k, a =>
    let r := insert n free .empty k a
    (r.1, .node l (Function.update (fun _ => .empty) (index B n k) r.2.1), r.2.2)

/-- Removes the leaf of key `k`. -/
def erase : (n : ℕ) → Tree B ι α n → ℕ → Tree B ι α n
  | 0, _, _ => .empty
  | _ + 1, .empty, _ => .empty
  | n + 1, .node l entry, k =>
    .node l (Function.update entry (index B n k) (erase n (entry (index B n k)) k))

/-- Changes the leaf of key `k`. -/
def modify (f : α → α) : (n : ℕ) → Tree B ι α n → ℕ → Tree B ι α n
  | 0, .leaf a, _ => .leaf (f a)
  | _, .empty, _ => .empty
  | n + 1, .node l entry, k =>
    .node l (Function.update entry (index B n k) (modify f n (entry (index B n k)) k))

end Operations

/-- How many nodes have label `l`. -/
def labels [DecidableEq ι] : {n : ℕ} → Tree B ι α n → ι → ℕ
  | _, .empty, _ => 0
  | _, .leaf _, _ => 0
  | _, .node label entry, l => (if label = l then 1 else 0) + ∑ i, labels (entry i) l

/-- The labels of a tree, those of the entries before that of the node. There is no result if
    the tree has a leaf. -/
def release : {n : ℕ} → Tree B ι α n → Option (List ι)
  | _, .empty => some []
  | _, .leaf _ => none
  | _, .node label entry =>
    ((List.finRange B).mapM fun i => release (entry i)).map fun ls => ls.flatten ++ [label]

/-! ### Leaves -/

section Leaves

variable [NeZero B] {n k k' : ℕ} {free free' : List ι} {a : α} {t t' : Tree B ι α n}

theorem index_eq_iff : index B n k = index B n k' ↔ k / B ^ n % B = k' / B ^ n % B := by
  simp [index, Fin.ext_iff, Fin.ofNat]

/-- Two keys agree below height `n + 1` if they agree below `n`, and in one more digit. -/
theorem mod_pow_succ_eq_iff :
    k % B ^ (n + 1) = k' % B ^ (n + 1) ↔
      index B n k = index B n k' ∧ k % B ^ n = k' % B ^ n := by
  have hpos : 0 < B ^ n := Nat.pow_pos (Nat.pos_of_ne_zero (NeZero.ne B))
  rw [index_eq_iff, Nat.mod_pow_succ, Nat.mod_pow_succ]
  constructor
  · intro h
    have hdiv : k / B ^ n % B = k' / B ^ n % B := by
      have hquot := congrArg (· / B ^ n) h
      simpa [Nat.add_mul_div_left _ _ hpos, Nat.div_eq_of_lt (Nat.mod_lt _ hpos)] using hquot
    rw [hdiv] at h
    exact ⟨hdiv, Nat.add_right_cancel h⟩
  · rintro ⟨hdiv, hmod⟩
    rw [hdiv, hmod]

/-- The leaf depends on the digits that the tree looks at. -/
theorem get_congr (t : Tree B ι α n) (h : k % B ^ n = k' % B ^ n) : get t k = get t k' := by
  induction t with
  | empty => rfl
  | leaf a => rfl
  | node label entry ih =>
    obtain ⟨hindex, hmod⟩ := mod_pow_succ_eq_iff.mp h
    rw [get, get, hindex]
    exact ih _ hmod

theorem get_node_update {label : ι} {entry : Fin B → Tree B ι α n} {c : Tree B ι α n} :
    get (.node label (Function.update entry (index B n k) c)) k' =
      if index B n k' = index B n k then get c k' else get (entry (index B n k')) k' := by
  rw [get]
  by_cases hi : index B n k' = index B n k
  · rw [if_pos hi, hi, Function.update_self]
  · rw [if_neg hi, Function.update_of_ne hi]

theorem get_insert_done (h : insert n free t k a = (free', t', .done)) (k' : ℕ) :
    get t' k' = if k' % B ^ n = k % B ^ n then some a else get t k' := by
  induction n generalizing free with
  | zero =>
    cases t with
    | empty =>
      cases h
      simp [get, Nat.mod_one]
    | leaf b => simp [insert] at h
  | succ n ih =>
    -- the digit of this node, then the rest of the key
    cases t with
    | empty =>
      cases free with
      | nil => simp [insert] at h
      | cons l free =>
        simp only [insert, Prod.mk.injEq] at h
        obtain ⟨hfree, rfl, hdone⟩ := h
        rw [get_node_update, ih (Prod.ext hfree (Prod.ext rfl hdone))]
        by_cases hi : index B n k' = index B n k <;> simp [mod_pow_succ_eq_iff, hi, get]
    | node label entry =>
      simp only [insert, Prod.mk.injEq] at h
      obtain ⟨hfree, rfl, hdone⟩ := h
      rw [get_node_update, ih (Prod.ext hfree (Prod.ext rfl hdone))]
      by_cases hi : index B n k' = index B n k <;> simp [mod_pow_succ_eq_iff, hi, get]

theorem get_insert_full (h : insert n free t k a = (free', t', .full)) (k' : ℕ) :
    get t' k' = get t k' := by
  induction n generalizing free with
  | zero => cases t <;> simp [insert] at h
  | succ n ih =>
    cases t with
    | empty =>
      cases free with
      | nil =>
        cases h
        rfl
      | cons l free =>
        simp only [insert, Prod.mk.injEq] at h
        obtain ⟨hfree, rfl, hfull⟩ := h
        rw [get_node_update, ih (Prod.ext hfree (Prod.ext rfl hfull))]
        simp [get]
    | node label entry =>
      simp only [insert, Prod.mk.injEq] at h
      obtain ⟨hfree, rfl, hfull⟩ := h
      rw [get_node_update, ih (Prod.ext hfree (Prod.ext rfl hfull))]
      by_cases hi : index B n k' = index B n k <;> simp [hi, get]

theorem get_erase (k' : ℕ) :
    get (erase n t k) k' = if k' % B ^ n = k % B ^ n then none else get t k' := by
  induction n with
  | zero => simp [erase, get, Nat.mod_one]
  | succ n ih =>
    cases t with
    | empty => simp [erase, get]
    | node label entry =>
      rw [erase, get_node_update, ih]
      by_cases hi : index B n k' = index B n k <;> simp [mod_pow_succ_eq_iff, hi, get]

theorem get_modify (f : α → α) (k' : ℕ) :
    get (modify f n t k) k' = if k' % B ^ n = k % B ^ n then (get t k').map f else get t k' := by
  induction n with
  | zero => cases t <;> simp [modify, get, Nat.mod_one]
  | succ n ih =>
    cases t with
    | empty => simp [modify, get]
    | node label entry =>
      rw [modify, get_node_update, ih]
      by_cases hi : index B n k' = index B n k <;> simp [mod_pow_succ_eq_iff, hi, get]

theorem insert_ne_taken (free : List ι) (h : get t k = none) :
    (insert n free t k a).2.2 ≠ .taken := by
  induction n generalizing free with
  | zero =>
    cases t with
    | empty => simp [insert]
    | leaf b => simp [get] at h
  | succ n ih =>
    cases t with
    | empty =>
      cases free with
      | nil => simp [insert]
      | cons l free => exact ih _ rfl
    | node label entry => exact ih _ h

/-- An insertion takes labels from the front of the list. -/
theorem insert_free_suffix (free : List ι) (t : Tree B ι α n) (k : ℕ) (a : α) :
    (insert n free t k a).1 <:+ free := by
  induction n generalizing free with
  | zero => cases t <;> exact List.suffix_rfl
  | succ n ih =>
    cases t with
    | empty =>
      cases free with
      | nil => exact List.suffix_rfl
      | cons l free => exact (ih free .empty).trans (List.suffix_cons l free)
    | node label entry => exact ih free _

end Leaves

/-! ### Labels -/

section Labels

variable [DecidableEq ι] {n k : ℕ} {free : List ι} {t : Tree B ι α n}

theorem sum_labels_update (entry : Fin B → Tree B ι α n) (i : Fin B) (c : Tree B ι α n) (l : ι) :
    ∑ j, labels (Function.update entry i c j) l + labels (entry i) l =
      ∑ j, labels (entry j) l + labels c l := by
  have hupdate : (fun j => labels (Function.update entry i c j) l) =
      Function.update (fun j => labels (entry j) l) i (labels c l) := by
    funext j
    by_cases hj : j = i
    · rw [hj, Function.update_self, Function.update_self]
    · rw [Function.update_of_ne hj, Function.update_of_ne hj]
  rw [hupdate, Finset.sum_update_of_mem (Finset.mem_univ i),
    ← Finset.add_sum_erase _ _ (Finset.mem_univ i), Finset.sdiff_singleton_eq_erase]
  omega

variable [NeZero B]

theorem labels_insert (free : List ι) (a : α) (l : ι) :
    labels (insert n free t k a).2.1 l + (insert n free t k a).1.count l =
      labels t l + free.count l := by
  induction n generalizing free with
  | zero => cases t <;> simp [insert, labels]
  | succ n ih =>
    cases t with
    | empty =>
      cases free with
      | nil => simp [insert, labels]
      | cons l' free =>
        have hsum := sum_labels_update (fun _ => Tree.empty) (index B n k)
          (insert n free (Tree.empty : Tree B ι α n) k a).2.1 l
        have hrec := ih (t := .empty) free
        simp only [insert, labels, List.count_cons, beq_iff_eq, Finset.sum_const_zero]
          at hsum hrec ⊢
        omega
    | node label entry =>
      have hsum := sum_labels_update entry (index B n k)
        (insert n free (entry (index B n k)) k a).2.1 l
      have hrec := ih (t := entry (index B n k)) free
      simp only [insert, labels]
      omega

theorem labels_erase (l : ι) : labels (erase n t k) l = labels t l := by
  induction n with
  | zero => cases t <;> simp [erase, labels]
  | succ n ih =>
    cases t with
    | empty => rfl
    | node label entry =>
      have hsum := sum_labels_update entry (index B n k) (erase n (entry (index B n k)) k) l
      rw [ih] at hsum
      simp only [erase, labels]
      omega

theorem labels_modify (f : α → α) (l : ι) : labels (modify f n t k) l = labels t l := by
  induction n with
  | zero => cases t <;> rfl
  | succ n ih =>
    cases t with
    | empty => rfl
    | node label entry =>
      have hsum := sum_labels_update entry (index B n k) (modify f n (entry (index B n k)) k) l
      rw [ih] at hsum
      simp only [modify, labels]
      omega

omit [NeZero B] in
theorem count_mapM_flatten {f : Fin B → Option (List ι)} {c : Fin B → ι → ℕ}
    (h : ∀ i, ∃ ls, f i = some ls ∧ ∀ l, ls.count l = c i l) (is : List (Fin B)) :
    ∃ lss, is.mapM f = some lss ∧ ∀ l, lss.flatten.count l = (is.map fun i => c i l).sum := by
  induction is with
  | nil => exact ⟨[], rfl, fun _ => rfl⟩
  | cons i is ih =>
    obtain ⟨ls, hls, hcount⟩ := h i
    obtain ⟨lss, hlss, hsum⟩ := ih
    refine ⟨ls :: lss, by simp [List.mapM_cons, hls, hlss], fun l => ?_⟩
    simp [List.count_append, hcount, hsum]

theorem release_of_get (h : ∀ k, get t k = none) :
    ∃ ls, release t = some ls ∧ ∀ l, ls.count l = labels t l := by
  induction t with
  | empty => exact ⟨[], rfl, fun _ => rfl⟩
  | leaf a => exact absurd (h 0) (by simp [get])
  | @node n label entry ih =>
    have hchild : ∀ i k, get (entry i) k = none := by
      intro i k
      -- a key that goes through entry `i` and agrees with `k` below
      have hpos : 0 < B ^ n := Nat.pow_pos (Nat.pos_of_ne_zero (NeZero.ne B))
      have hindex : index B n (k % B ^ n + B ^ n * i) = i := by
        apply Fin.ext
        simp [index, Fin.ofNat, Nat.add_mul_div_left _ _ hpos,
          Nat.div_eq_of_lt (Nat.mod_lt k hpos), Nat.mod_eq_of_lt i.isLt]
      have hkey := h (k % B ^ n + B ^ n * i)
      rw [get, hindex] at hkey
      rw [← hkey]
      exact get_congr _ (by simp)
    obtain ⟨lss, hlss, hsum⟩ := count_mapM_flatten (fun i => ih i (hchild i)) (List.finRange B)
    refine ⟨lss.flatten ++ [label], by rw [release, hlss]; rfl, fun l => ?_⟩
    rw [List.count_append, hsum, labels, ← List.sum_ofFn, List.ofFn_eq_map, List.count_singleton]
    simp only [beq_iff_eq]
    omega

end Labels

end MiniOs.RadixTree

import Mathlib

/-!
# Memory in pages

A memory is a function from addresses to cells. `patch` writes a list of cells in a row, and `slice`
reads one. A paged memory is a function from page numbers to pages of `P` cells; `flat` is the
memory that it stands for, and a write that stays in one page changes that page only.

## Main definitions

- `patch`, `slice` — writing and reading cells in a row
- `flat`, `splice` — a paged memory, and a write into one page
- `leBytes`, `word` — numbers in memory

## Main results

- `patch_append`, `slice_patch`, `slice_patch_of_disjoint` — writes and reads
- `flat_update_splice`, `slice_flat` — page by page
-/

namespace MiniOs.PagedMemory

variable {α : Type*} {f : ℕ → α} {a b n x : ℕ} {l l' : List α}

def patch (f : ℕ → α) (a : ℕ) (l : List α) (x : ℕ) : α :=
  if a ≤ x then l[x - a]?.getD (f x) else f x

/-- The `n` cells from address `a` on. -/
def slice (f : ℕ → α) (a n : ℕ) : List α :=
  (List.range n).map fun i => f (a + i)

@[simp]
theorem patch_nil : patch f a [] = f := by
  funext x
  simp [patch]

theorem patch_of_lt (h : x < a) : patch f a l x = f x :=
  if_neg (Nat.not_le.mpr h)

theorem patch_of_le (h : a + l.length ≤ x) : patch f a l x = f x := by
  rw [patch, List.getElem?_eq_none (by omega), Option.getD_none, ite_self]

theorem patch_add (h : n < l.length) : patch f a l (a + n) = l[n] := by
  rw [patch, if_pos (Nat.le_add_right a n), Nat.add_sub_cancel_left, List.getElem?_eq_getElem h,
    Option.getD_some]

/-- **A long write is two short ones.** -/
theorem patch_append : patch f a (l ++ l') = patch (patch f a l) (a + l.length) l' := by
  funext x
  by_cases hlow : x < a + l.length
  · rw [patch_of_lt hlow]
    by_cases ha : x < a
    · rw [patch_of_lt ha, patch_of_lt ha]
    · rw [patch, patch, List.getElem?_append_left (by omega)]
  · rw [patch, patch, if_pos (by omega), if_pos (by omega), patch_of_le (by omega),
      List.getElem?_append_right (by omega), Nat.sub_add_eq]

@[simp]
theorem length_slice : (slice f a n).length = n := by
  simp [slice]

theorem slice_add {m : ℕ} : slice f a (m + n) = slice f a m ++ slice f (a + m) n := by
  simp [slice, List.range_add, Function.comp_def, Nat.add_assoc]

theorem slice_congr {g : ℕ → α} (h : ∀ i < n, f (a + i) = g (a + i)) : slice f a n = slice g a n :=
  List.map_congr_left fun i hi => h i (List.mem_range.mp hi)

theorem slice_of_isPrefix (h : l <+: slice f a n) : slice f a l.length = l := by
  obtain ⟨l', hl⟩ := h
  have hlen : l.length ≤ n := by
    rw [← length_slice (f := f) (a := a) (n := n), ← hl, List.length_append]
    omega
  rw [show n = l.length + (n - l.length) by omega, slice_add] at hl
  exact (List.append_inj_left hl (by simp)).symm

theorem slice_patch : slice (patch f a l) a l.length = l := by
  refine List.ext_getElem length_slice fun i hi hi' => ?_
  simp only [slice, List.getElem_map, List.getElem_range, patch_add hi']

theorem isPrefix_slice_patch (h : l.length ≤ n) : l <+: slice (patch f a l) a n := by
  obtain ⟨d, rfl⟩ := Nat.exists_eq_add_of_le h
  rw [slice_add, slice_patch]
  exact List.prefix_append ..

theorem slice_patch_of_disjoint (h : b + n ≤ a ∨ a + l.length ≤ b) :
    slice (patch f a l) b n = slice f b n := by
  refine slice_congr fun i hi => ?_
  obtain h | h := h
  · exact patch_of_lt (by omega)
  · exact patch_of_le (by omega)

section Pages

variable {P : ℕ} [NeZero P] {c : ℕ → Fin P → α} {k off : ℕ}

/-- The memory that consists of the pages of `c`. -/
def flat (c : ℕ → Fin P → α) (a : ℕ) : α :=
  c (a / P) (Fin.ofNat P a)

def splice (page : Fin P → α) (off : ℕ) (l : List α) (b : Fin P) : α :=
  if off ≤ b then l[b - off]?.getD (page b) else page b

/-- **A write that stays in its page.** -/
theorem flat_update_splice (h : off + l.length ≤ P) :
    flat (Function.update c k (splice (c k) off l)) = patch (flat c) (k * P + off) l := by
  have hP : 0 < P := Nat.pos_of_neZero P
  funext x
  have hx : x / P * P + x % P = x := Nat.div_add_mod' x P
  by_cases hk : x / P = k
  · rw [flat, hk, Function.update_self, splice, patch]
    rw [hk] at hx
    have hflat : flat c x = c k (Fin.ofNat P x) := by rw [flat, hk]
    rw [hflat, Fin.val_ofNat, show x - (k * P + off) = x % P - off by omega]
    by_cases hoff : off ≤ x % P
    · rw [if_pos hoff, if_pos (by omega)]
    · rw [if_neg hoff, if_neg (by omega)]
  · rw [flat, Function.update_of_ne hk]
    obtain hlt | hgt := Nat.lt_or_gt_of_ne hk
    · have hle : (x / P + 1) * P ≤ k * P := Nat.mul_le_mul_right P hlt
      have hmod := Nat.mod_lt x hP
      rw [Nat.succ_mul] at hle
      rw [patch_of_lt (by omega), flat]
    · have hle : (k + 1) * P ≤ x / P * P := Nat.mul_le_mul_right P hgt
      rw [Nat.succ_mul] at hle
      rw [patch_of_le (by omega), flat]

/-- **A read that stays in its page.** -/
theorem slice_flat (k : ℕ) (h : off + n ≤ P) :
    slice (flat c) (k * P + off) n = (List.range n).map fun i => c k (Fin.ofNat P (off + i)) := by
  refine List.map_congr_left fun i hi => ?_
  have hi : i < n := List.mem_range.mp hi
  have hP : 0 < P := Nat.pos_of_neZero P
  rw [flat, Nat.add_assoc, Nat.mul_comm, Nat.mul_add_div hP, Nat.div_eq_of_lt (by omega),
    Nat.add_zero]
  congr 1
  ext
  simp

end Pages

/-! ### Words -/

/-- The lowest `w` bytes of a number, the lowest one first. -/
def leBytes : ℕ → ℕ → List UInt8
  | 0, _ => []
  | w + 1, n => UInt8.ofNat n :: leBytes w (n / 256)

/-- The number with these bytes. -/
def ofBytes : List UInt8 → ℕ
  | [] => 0
  | b :: l => b.toNat + 256 * ofBytes l

@[simp]
theorem length_leBytes (w n : ℕ) : (leBytes w n).length = w := by
  induction w generalizing n with
  | zero => rfl
  | succ w ih => rw [leBytes, List.length_cons, ih]

theorem ofBytes_leBytes {w : ℕ} (h : n < 256 ^ w) : ofBytes (leBytes w n) = n := by
  induction w generalizing n with
  | zero =>
    rw [Nat.pow_zero, Nat.lt_one_iff] at h
    rw [h, leBytes, ofBytes]
  | succ w ih =>
    rw [Nat.pow_succ] at h
    rw [leBytes, ofBytes, ih (by omega), UInt8.toNat_ofNat']
    omega

/-- The word of eight bytes at address `a`. -/
def word (f : ℕ → UInt8) (a : ℕ) : ℕ :=
  ofBytes (slice f a 8)

end MiniOs.PagedMemory
